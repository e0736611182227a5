import Motif.Proofs.Matching.Indices

/-!
# Growing charts

Matching only ever adds to a chart. An outcome that is remembered stays, frontiers move forwards,
and the slot of a last position stays as it is once a pattern has been tried at every position up to
there. The tokens that are added are made of others: those that the tree of their pattern consumes,
one after another without a gap.
-/

namespace Motif

/-- A tree refers to an id outside all that looks around. -/
inductive Node.Consumes (id : Int) : Node → Prop where
  | ref (quantity : Quantity) : Consumes id (.ref id quantity .here)
  | inside {child : Node} {alternatives : List (List Node)} {quantity : Quantity}
      {sequence : List Node} (hsequence : sequence ∈ alternatives) (hchild : child ∈ sequence)
      (hconsumes : Consumes id child) : Consumes id (.group alternatives quantity .here)

namespace Chart

open Evaluation (Fits)

variable {text : Array Char} {active : List Cell} {chart before after : Chart}

/-! ## Tokens one after another -/

/-- Tokens of a chart, none of them empty, stand one after another from one position to another. -/
def Tiles (chart : Chart) : Int → List Token → Int → Prop
  | start, [], stop => start = stop
  | start, child :: rest, stop => child ∈ chart.tokens ∧ 0 < child.length ∧ child.start = start ∧
    Tiles chart child.stop rest stop

theorem Tiles.append {start middle stop : Int} {children others : List Token}
    (hchildren : Tiles chart start children middle) (hothers : Tiles chart middle others stop) :
    Tiles chart start (children ++ others) stop := by
  induction children generalizing start with
  | nil =>
      obtain rfl : start = middle := hchildren
      exact hothers
  | cons child rest ih =>
      obtain ⟨hmem, hlength, hstart, hrest⟩ := hchildren
      exact ⟨hmem, hlength, hstart, ih hrest⟩

theorem Tiles.mono {start stop : Int} {children : List Token}
    (hchildren : Tiles before start children stop)
    (htokens : ∀ token ∈ before.tokens, token ∈ after.tokens) :
    Tiles after start children stop := by
  induction children generalizing start with
  | nil => exact hchildren
  | cons child rest ih =>
      obtain ⟨hmem, hlength, hstart, hrest⟩ := hchildren
      exact ⟨htokens child hmem, hlength, hstart, ih hrest⟩

theorem Tiles.le {start stop : Int} {children : List Token}
    (hchildren : Tiles chart start children stop) : start ≤ stop := by
  induction children generalizing start with
  | nil => exact le_of_eq hchildren
  | cons child rest ih =>
      obtain ⟨-, hlength, hstart, hrest⟩ := hchildren
      have hle := ih hrest
      unfold Token.stop at hle
      omega

/-- Nothing stands between two positions only if they are the same. -/
theorem Tiles.eq_nil_iff {start stop : Int} {children : List Token}
    (hchildren : Tiles chart start children stop) : children = [] ↔ start = stop := by
  cases children with
  | nil => exact ⟨fun _ => hchildren, fun _ => rfl⟩
  | cons child rest =>
      obtain ⟨-, hlength, hstart, hrest⟩ := hchildren
      have hle := hrest.le
      unfold Token.stop at hle
      refine ⟨fun heq => (List.cons_ne_nil _ _ heq).elim, fun heq => ?_⟩
      omega

/-- A token is made of what its pattern consumes: from the derived kind on a tree is made of tokens
that stand one after another from its start to its end; everything else has no children. -/
def MadeBy (chart : Chart) (consumes : Node → Int → Prop) (pattern : Pattern)
    (token : Token) : Prop :=
  match pattern.content with
  | .literal _ => token.children = []
  | .tree root =>
    if .derived ≤ pattern.kind then
      Tiles chart token.start token.children token.stop ∧
        ∀ child ∈ token.children, consumes root child.id
    else token.children = []

theorem MadeBy.mono {consumes other : Node → Int → Prop} {pattern : Pattern} {token : Token}
    (hmade : MadeBy before consumes pattern token)
    (htokens : ∀ token ∈ before.tokens, token ∈ after.tokens)
    (hconsumes : ∀ node id, consumes node id → other node id) :
    MadeBy after other pattern token := by
  unfold MadeBy at hmade ⊢
  cases hcontent : pattern.content with
  | literal word =>
      rw [hcontent] at hmade
      exact hmade
  | tree root =>
      rw [hcontent] at hmade
      dsimp only at hmade ⊢
      split at hmade
      next hkind =>
        rw [if_pos hkind]
        exact ⟨hmade.1.mono htokens, fun child hchild => hconsumes root _ (hmade.2 child hchild)⟩
      next hkind =>
        rw [if_neg hkind]
        exact hmade

/-! ## What stays -/

/-- A chart has come about from another one by matching: what was known then is known still. -/
structure Grows (before after : Chart) : Prop where
  text_eq : after.text = before.text
  outcome_eq : ∀ {position id outcome}, before.outcome? position id = some outcome →
    after.outcome? position id = some outcome
  scannedUntil_le : ∀ id, before.scannedUntil id ≤ after.scannedUntil id
  tail?_eq : ∀ {last id}, (∀ position : Int, 0 ≤ position → position ≤ last →
    position < before.text.size → (before.outcome? position id).isSome) →
      after.tail? last id = before.tail? last id

theorem Grows.refl (chart : Chart) : Grows chart chart :=
  ⟨rfl, id, fun _ => le_refl _, fun _ => rfl⟩

theorem Grows.trans {first second third : Chart} (hfirst : Grows first second)
    (hsecond : Grows second third) : Grows first third where
  text_eq := hsecond.text_eq.trans hfirst.text_eq
  outcome_eq houtcome := hsecond.outcome_eq (hfirst.outcome_eq houtcome)
  scannedUntil_le id := (hfirst.scannedUntil_le id).trans (hsecond.scannedUntil_le id)
  tail?_eq {last id} htried := by
    refine (hsecond.tail?_eq fun position hnonneg hlast hsize => ?_).trans (hfirst.tail?_eq htried)
    rw [hfirst.text_eq] at hsize
    obtain ⟨outcome, houtcome⟩ := Option.isSome_iff_exists.mp (htried position hnonneg hlast hsize)
    exact Option.isSome_iff_exists.mpr ⟨outcome, hfirst.outcome_eq houtcome⟩

theorem Grows.withActive (chart : Chart) (others : List Cell) :
    Grows chart { chart with active := others } :=
  ⟨rfl, id, fun _ => le_refl _, fun _ => rfl⟩

theorem scannedUntil_markScanned (chart : Chart) (id position other : Int) :
    (chart.markScanned id position).scannedUntil other =
      if id = other ∧ chart.scannedUntil id = position then position + 1
      else chart.scannedUntil other := by
  unfold markScanned
  split
  next hfrontier =>
    rw [scannedUntil, Std.TreeMap.getD_insert]
    simp only [Std.LawfulEqCmp.compare_eq_iff_eq, hfrontier, and_true]
    rfl
  next hfrontier => simp [hfrontier]

/-- A frontier that is no further behind moves on over a position. -/
theorem lt_scannedUntil_markScanned {chart : Chart} {id position : Int}
    (hfrontier : position ≤ chart.scannedUntil id) :
    position < (chart.markScanned id position).scannedUntil id := by
  rw [scannedUntil_markScanned]
  split
  next => omega
  next hpassed =>
    have hne : chart.scannedUntil id ≠ position := fun heq => hpassed ⟨rfl, heq⟩
    omega

theorem outcome?_markScanned (chart : Chart) (id position place other : Int) :
    (chart.markScanned id position).outcome? place other = chart.outcome? place other := by
  unfold markScanned
  split <;> rfl

theorem Grows.markScanned (chart : Chart) (id position : Int) :
    Grows chart (chart.markScanned id position) := by
  have hsame : (chart.markScanned id position).text = chart.text ∧
      (chart.markScanned id position).tails = chart.tails := by
    unfold Chart.markScanned
    split <;> exact ⟨rfl, rfl⟩
  obtain ⟨htext, htails⟩ := hsame
  refine ⟨htext, ?_, ?_, ?_⟩
  · intro place other outcome houtcome
    rw [outcome?_markScanned]
    exact houtcome
  · intro other
    rw [scannedUntil_markScanned]
    split
    next hfrontier =>
      obtain ⟨rfl, hfrontier⟩ := hfrontier
      omega
    next => exact le_refl _
  · intro last other _
    rw [tail?, htails]
    rfl

theorem Grows.withOutcome {position id : Int} (hnew : chart.outcome? position id = none)
    (outcome : Option Token) : Grows chart (chart.withOutcome position id outcome) := by
  refine ⟨rfl, ?_, fun _ => le_refl _, fun _ => rfl⟩
  intro place other result hresult
  rw [outcome?_withOutcome, if_neg]
  · exact hresult
  · rintro ⟨rfl, rfl⟩
    rw [hnew] at hresult
    cases hresult

theorem Grows.withToken (hchart : Indexed text active chart) {found : Token}
    (hnew : chart.outcome? found.start found.id = none)
    (hfits : Fits text found.id found.start found) (hlength : 0 < found.length) :
    Grows chart (chart.withToken found) := by
  have hlast := hfits.last_inside hlength
  rw [← hchart.size_tails] at hlast
  refine ⟨rfl, ?_, fun _ => le_refl _, ?_⟩
  · intro place other result hresult
    rw [outcome?_withToken, if_neg]
    · exact hresult
    · rintro ⟨rfl, rfl⟩
      rw [hnew] at hresult
      cases hresult
  · intro last other htried
    rw [tail?_withToken hlast, if_neg]
    · -- The token is new, and so its pattern has not been tried at all positions up to its end.
      rintro ⟨rfl, rfl⟩
      have hstart := htried found.start hfits.start_nonneg (by unfold Token.last; omega)
        (by rw [hchart.text_eq]; exact (hfits.start_inside hlength).2)
      rw [hnew] at hstart
      cases hstart

/-- Remembering the first outcome of a trial that has ended cannot fail; it adds that outcome and
nothing else. -/
theorem Indexed.remember (hchart : Indexed text active chart) {position id : Int}
    (hnew : chart.outcome? position id = none) (hended : (position, id) ∉ active)
    {outcome : Option Token}
    (hfits : ∀ found, outcome = some found → Fits text id position found) :
    ∃ after, (remember position id outcome).run chart = (.ok (), after) ∧
      Indexed text active after ∧ Grows chart after ∧ after.scanned = chart.scanned ∧
        ∀ place other, after.outcome? place other =
          if position = place ∧ id = other then some outcome else chart.outcome? place other := by
  obtain rfl := hchart.text_eq
  rcases run_remember hfits with ⟨hrun, hempty⟩ | ⟨found, rfl, hlength, hrun⟩
  · exact ⟨_, hrun, hchart.withOutcome hnew hended hfits hempty, .withOutcome hnew outcome, rfl,
      fun place other => outcome?_withOutcome chart position id outcome place other⟩
  · have hfound := hfits found rfl
    obtain rfl := hfound.id_eq
    obtain rfl := hfound.start_eq
    exact ⟨_, hrun, hchart.withToken hnew hfound hlength hended,
      .withToken hchart hnew hfound hlength, rfl,
      fun place other => outcome?_withToken chart found place other⟩

/-- The tokens of a chart stay. -/
theorem Grows.mem_tokens {others : List Cell} (hgrows : Grows before after)
    (hbefore : Indexed text active before) (hafter : Indexed text others after) {token : Token}
    (htoken : token ∈ before.tokens) : token ∈ after.tokens := by
  rw [hbefore.mem_tokens_iff, hbefore.head?_eq_some_iff] at htoken
  rw [hafter.mem_tokens_iff, hafter.head?_eq_some_iff]
  exact ⟨hgrows.outcome_eq htoken.1, htoken.2⟩

end Chart

/-- A grammar leads from a node on to the tokens of an id, outside all that looks around. -/
def Grammar.Consumes (grammar : Grammar) (node : Node) (id : Int) : Prop :=
  ∃ reference pattern, node.Consumes reference ∧ grammar.find? reference = some pattern ∧
    pattern.id = id

namespace Chart

open Evaluation (Fits)

/-- A chart has come about from another one by matching patterns of a grammar: it has grown, its
indices still agree with its outcomes, and every new token is made of what its pattern consumes. -/
structure Extends (grammar : Grammar) (known : Pattern → Prop) (text : Array Char)
    (active : List Cell) (before after : Chart) : Prop where
  indexed_before : Indexed text active before
  indexed : Indexed text active after
  grows : Grows before after
  made : ∀ {position id found}, before.outcome? position id = none →
    after.outcome? position id = some (some found) →
      ∃ pattern, known pattern ∧ pattern.id = id ∧ MadeBy after grammar.Consumes pattern found

variable {grammar : Grammar} {known : Pattern → Prop} {text : Array Char} {active : List Cell}
  {chart before after : Chart}

theorem Extends.mem_tokens (hextends : Extends grammar known text active before after)
    {token : Token} (htoken : token ∈ before.tokens) : token ∈ after.tokens :=
  hextends.grows.mem_tokens hextends.indexed_before hextends.indexed htoken

theorem Indexed.extends_self (hchart : Indexed text active chart) :
    Extends grammar known text active chart chart where
  indexed_before := hchart
  indexed := hchart
  grows := .refl chart
  made hnone hsome := by
    rw [hnone] at hsome
    cases hsome

instance : Growth (Extends grammar known text active) where
  trans {first second third} hfirst hsecond := by
    refine ⟨hfirst.indexed_before, hsecond.indexed, hfirst.grows.trans hsecond.grows, ?_⟩
    intro position id found hnone hsome
    cases houtcome : second.outcome? position id with
    | none => exact hsecond.made houtcome hsome
    | some outcome =>
        -- A token that the first part has added is still made of the same tokens.
        rw [hsecond.grows.outcome_eq houtcome] at hsome
        rw [Option.some.inj hsome] at houtcome
        obtain ⟨pattern, hknown, hid, hmade⟩ := hfirst.made hnone houtcome
        exact ⟨pattern, hknown, hid,
          hmade.mono (fun _ => hsecond.mem_tokens) fun _ _ hconsumes => hconsumes⟩
  refl_right hextends := hextends.indexed.extends_self

theorem Indexed.extends_markScanned (hchart : Indexed text active chart) (id position : Int) :
    Extends grammar known text active chart (chart.markScanned id position) where
  indexed_before := hchart
  indexed := hchart.markScanned id position
  grows := .markScanned chart id position
  made hnone hsome := by
    rw [outcome?_markScanned, hnone] at hsome
    cases hsome

/-- Remembering what has been built for a known pattern extends a chart. -/
theorem Indexed.exists_remember (hchart : Indexed text active chart) {pattern : Pattern}
    {start : Int} (hknown : known pattern) (hnew : chart.outcome? start pattern.id = none)
    (hended : (start, pattern.id) ∉ active) {outcome : Option Token}
    (hbuilt : ∀ found, outcome = some found → Fits text pattern.id start found ∧
      MadeBy chart grammar.Consumes pattern found) :
    ∃ after, (Chart.remember start pattern.id outcome).run chart = (.ok (), after) ∧
      Extends grammar known text active chart after ∧ after.scanned = chart.scanned ∧
        ∀ place other, after.outcome? place other =
          if start = place ∧ pattern.id = other then some outcome
          else chart.outcome? place other := by
  obtain ⟨after, hrun, hafter, hgrows, hscanned, hcells⟩ := hchart.remember hnew hended
    fun found hfound => (hbuilt found hfound).1
  refine ⟨after, hrun, ⟨hchart, hafter, hgrows, ?_⟩, hscanned, hcells⟩
  intro position id found hnone hsome
  rw [hcells] at hsome
  split at hsome
  next hcell =>
    obtain ⟨rfl, rfl⟩ := hcell
    have hmade := (hbuilt found (Option.some.inj hsome)).2
    exact ⟨pattern, hknown, rfl, hmade.mono (fun _ => hgrows.mem_tokens hchart hafter)
      fun _ _ hconsumes => hconsumes⟩
  next =>
    rw [hnone] at hsome
    cases hsome

/-- What has been added while a trial was under way is still there after the trial has ended. -/
theorem Extends.leave (hchart : Indexed text active chart) {position id : Int}
    (hextends : Extends grammar known text ((position, id) :: active)
      { chart with active := (position, id) :: chart.active } after) :
    Extends grammar known text active chart (after.leave position id) := by
  rw [leave_eq hextends.indexed.active_eq]
  refine ⟨hchart, ?_, ?_, ?_⟩
  · exact hextends.indexed.withActive fun hmem =>
      hextends.indexed.outcome_of_active (List.mem_cons_of_mem _ hmem)
  · exact ((Grows.withActive chart _).trans hextends.grows).trans (.withActive after active)
  · intro place other found hnone hsome
    obtain ⟨pattern, hknown, hother, hmade⟩ := hextends.made hnone hsome
    exact ⟨pattern, hknown, hother, hmade.mono (fun _ hmem => hmem)
      fun _ _ hconsumes => hconsumes⟩

/-- A remembered token of positive length stands in the chart. -/
theorem Indexed.mem_tokens_of_outcome (hchart : Indexed text active chart) {position id : Int}
    {found : Token} (houtcome : chart.outcome? position id = some (some found))
    (hlength : 0 < found.length) : found ∈ chart.tokens := by
  have hfits := hchart.fits houtcome
  rw [hchart.mem_tokens_iff, hchart.head?_eq_some_iff, hfits.start_eq, hfits.id_eq]
  exact ⟨houtcome, hlength⟩

end Chart

end Motif
