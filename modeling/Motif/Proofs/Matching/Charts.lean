import Motif.Proofs.Matching.Transparency

/-!
# Charts of parses and of calls

The chart of a parse, and every chart on which registered patterns have been matched at any
positions in any order, holds and gives what plain evaluation gives.
-/

namespace Motif

namespace Chart

open Evaluation

variable {grammar : Grammar} {text : Array Char} {token : Int → Int → Option Token}
  {rank depth : Int → Nat}

/-- Patterns matched one after another, each at its position. -/
def matchAll (grammar : Grammar) (calls : List (Pattern × Int)) (maxDepth : Int) :
    Action (List (Option Token)) :=
  calls.mapM fun call => tryPattern grammar call.1 call.2 maxDepth

theorem settles_matchAll (heval : Evaluates grammar text token rank depth)
    {calls : List (Pattern × Int)}
    (hcalls : ∀ call ∈ calls, grammar.find? call.1.id = some call.1) {maxDepth : Int}
    (hdepth : ∀ call ∈ calls, call.1.depth depth ≤ roomFor maxDepth)
    (done : Int → Int → Prop) :
    Settles (Faithful grammar text token [] done) (matchAll grammar calls maxDepth)
      (calls.map fun call => token call.1.id call.2) := by
  refine .mapM fun call hcall chart hchart => ?_
  obtain ⟨after, hrun, hafter, -⟩ := transparent heval (hcalls call hcall) (hdepth call hcall)
    (fun cell hcell => absurd hcell List.not_mem_nil) done call.2 chart hchart
  exact ⟨after, hrun, hafter⟩

/-- Trying patterns at a position leaves an outcome for each of them. -/
theorem settles_tryAll (heval : Evaluates grammar text token rank depth) {room : Nat}
    {position : Int} (hnonneg : 0 ≤ position) (hsize : position < text.size)
    {patterns : List Pattern}
    (hpatterns : ∀ pattern ∈ patterns, grammar.find? pattern.id = some pattern)
    (hdepth : ∀ pattern ∈ patterns, pattern.depth depth ≤ room) {done : Int → Int → Prop}
    {chart : Chart} (hchart : Faithful grammar text token [] done chart) :
    SettlesFrom (Faithful grammar text token [] fun place id => done place id ∨
        place = position ∧ ∃ pattern ∈ patterns, pattern.id = id)
      chart (tryAll grammar room position patterns) ⟨⟩ := by
  -- What is done grows with each pattern, so the induction has to hold for every such set.
  induction patterns generalizing done chart with
  | nil => exact .pure (hchart.weaken fun place id hplace => by simpa using hplace) _
  | cons first rest ih =>
      obtain ⟨middle, hrun, hmiddle, htried⟩ := transparent heval
        (hpatterns first List.mem_cons_self) (hdepth first List.mem_cons_self)
        (fun cell hcell => absurd hcell List.not_mem_nil) done position chart hchart
      obtain ⟨after, hafter, hfaithful⟩ := ih
        (fun pattern hpattern => hpatterns pattern (List.mem_cons_of_mem _ hpattern))
        (fun pattern hpattern => hdepth pattern (List.mem_cons_of_mem _ hpattern))
        (hmiddle.tried htried)
      refine ⟨after, ?_, hfaithful.weaken ?_⟩
      · unfold tryAll
        rw [List.forM_eq_forM, List.forM_cons, bind_assoc]
        refine (run_bind_of_ok hrun).trans ?_
        exact (run_bind_of_ok rfl).trans hafter
      · rintro place id (hplace | ⟨rfl, pattern, hpattern, rfl⟩)
        · exact .inl (.inl hplace)
        · rcases List.mem_cons.mp hpattern with rfl | hpattern
          · exact .inl (.inr ⟨rfl, rfl, hnonneg, hsize⟩)
          · exact .inr ⟨rfl, pattern, hpattern, rfl⟩

/-- Trying patterns at positions in order leaves an outcome for each of them at each position. -/
theorem settles_tryPositions (heval : Evaluates grammar text token rank depth) {room : Nat}
    {patterns : List Pattern}
    (hpatterns : ∀ pattern ∈ patterns, grammar.find? pattern.id = some pattern)
    (hdepth : ∀ pattern ∈ patterns, pattern.depth depth ≤ room) {positions : List Nat}
    (hpositions : ∀ position ∈ positions, position < text.size) {done : Int → Int → Prop}
    {chart : Chart} (hchart : Faithful grammar text token [] done chart) :
    SettlesFrom (Faithful grammar text token [] fun place id => done place id ∨
        ∃ position ∈ positions, place = (position : Int) ∧ ∃ pattern ∈ patterns, pattern.id = id)
      chart (positions.forM fun position => tryAll grammar room position patterns) ⟨⟩ := by
  induction positions generalizing done chart with
  | nil => exact .pure (hchart.weaken fun place id hplace => by simpa using hplace) _
  | cons first rest ih =>
      have hsize := hpositions first List.mem_cons_self
      obtain ⟨middle, hrun, hmiddle⟩ := settles_tryAll heval (Int.natCast_nonneg first)
        (by omega) hpatterns hdepth hchart
      obtain ⟨after, hafter, hfaithful⟩ := ih
        (fun position hposition => hpositions position (List.mem_cons_of_mem _ hposition)) hmiddle
      refine ⟨after, ?_, hfaithful.weaken ?_⟩
      · rw [List.forM_eq_forM, List.forM_cons]
        exact (run_bind_of_ok hrun).trans hafter
      · rintro place id (hplace | ⟨position, hposition, hat, hpattern⟩)
        · exact .inl (.inl hplace)
        · rcases List.mem_cons.mp hposition with rfl | hposition
          · exact .inl (.inr ⟨hat, hpattern⟩)
          · exact .inr ⟨position, hposition, hat, hpattern⟩

/-- Trying patterns at every position of the text leaves an outcome for each of them everywhere. -/
theorem settles_fill (heval : Evaluates grammar text token rank depth) {maxDepth : Int}
    {patterns : List Pattern}
    (hpatterns : ∀ pattern ∈ patterns, grammar.find? pattern.id = some pattern)
    (hdepth : ∀ pattern ∈ patterns, pattern.depth depth ≤ roomFor maxDepth)
    {done : Int → Int → Prop} {chart : Chart}
    (hchart : Faithful grammar text token [] done chart) :
    SettlesFrom (Faithful grammar text token [] fun place id =>
        0 ≤ place ∧ place < text.size ∧ ∃ pattern ∈ patterns, pattern.id = id)
      chart (fill grammar patterns maxDepth) ⟨⟩ := by
  have hpositions : ∀ position ∈ List.range chart.text.size, position < text.size := by
    intro position hposition
    rw [hchart.text_eq] at hposition
    exact List.mem_range.mp hposition
  obtain ⟨after, hrun, hafter⟩ :=
    settles_tryPositions heval hpatterns hdepth hpositions hchart
  refine ⟨after, ?_, hafter.weaken ?_⟩
  · unfold fill
    exact (run_bind_of_ok rfl).trans hrun
  · rintro place id ⟨hnonneg, hsize, hpattern⟩
    refine .inr ⟨place.toNat, ?_, (Int.toNat_of_nonneg hnonneg).symm, hpattern⟩
    rw [hchart.text_eq, List.mem_range]
    omega

end Chart

namespace Registry

open Evaluation

/-- Every look behind of the content can be retraced. -/
def Retraces (token : Int → Int → Option Token) (content : Content) : Prop :=
  ∀ root node, content = .tree root → Node.Within node root → node.look = .behind →
    node.Retraceable (Unambiguous token)

/-- Every look behind in a registered pattern goes back through one node at a time. -/
def LooksBehindInSingleFile (registry : Registry) : Prop :=
  ∀ pattern ∈ registry.patterns, ∀ root, pattern.content = .tree root →
    ∀ node, Node.Within node root → node.look = .behind → node.SingleFile

/-- The depths of the registered patterns. -/
def depth (registry : Registry) : Int → Nat :=
  registry.along 0 Pattern.depth

variable {registry : Registry}

theorem hasDepths (hcoherent : registry.Coherent) (hclosed : registry.Closed)
    (hacyclic : registry.Acyclic) : registry.grammar.HasDepths registry.depth := by
  intro id pattern hpattern
  have hstep : Grammar.FromReferences Pattern.depth := fun _ _ _ hbelow =>
    Pattern.depth_congr hbelow
  exact along_eq hcoherent hclosed hacyclic hstep hpattern

/-- Every look behind of a registered pattern can be retraced in the text. -/
def RetracesIn (registry : Registry) (text : String) : Prop :=
  ∀ pattern ∈ registry.patterns, Retraces (registry.token text) pattern.content

theorem LooksBehindInSingleFile.retracesIn (hbehind : registry.LooksBehindInSingleFile)
    (text : String) : registry.RetracesIn text :=
  fun pattern hpattern root node hcontent hwithin hlook =>
    (hbehind pattern hpattern root hcontent node hwithin hlook).retraceable _

theorem evaluates_of_retracesIn (hcoherent : registry.Coherent) (hclosed : registry.Closed)
    (hacyclic : registry.Acyclic) {text : String} (hretraces : registry.RetracesIn text) :
    Evaluates registry.grammar text.toList.toArray (registry.token text) registry.rank
      registry.depth where
  layered := layered hcoherent hclosed hacyclic
  depths := hasDepths hcoherent hclosed hacyclic
  token_eq _ _ hpattern := token_eq hcoherent hclosed hacyclic text hpattern
  fits _ _ _ hfound := fits_of_along (layered hcoherent hclosed hacyclic) hfound
  retraceable id pattern root node hpattern hcontent hwithin hlook := by
    have hmem : pattern ∈ registry.patterns := by
      rw [hcoherent.mem_patterns_iff, hcoherent.id_eq hpattern]
      exact hpattern
    exact hretraces pattern hmem root node hcontent hwithin hlook

theorem evaluates (hcoherent : registry.Coherent) (hclosed : registry.Closed)
    (hacyclic : registry.Acyclic) (hbehind : registry.LooksBehindInSingleFile) (text : String) :
    Evaluates registry.grammar text.toList.toArray (registry.token text) registry.rank
      registry.depth :=
  evaluates_of_retracesIn hcoherent hclosed hacyclic (hbehind.retracesIn text)

theorem roomFor_le_roomFor {maxDepth greater : Int} (hgreater : maxDepth ≤ greater) :
    Chart.roomFor maxDepth ≤ Chart.roomFor greater := by
  unfold Chart.roomFor
  omega

/-- A limit that leaves room for the depths of the patterns is not reached by calls. -/
theorem unreached_matchAll (hcoherent : registry.Coherent) (hclosed : registry.Closed)
    (hacyclic : registry.Acyclic) {calls : List (Pattern × Int)} {maxDepth : Int}
    (hdepth : ∀ call ∈ calls, call.1.depth registry.depth ≤ Chart.roomFor maxDepth)
    (chart : Chart) :
    Unreached (fun limit => (Chart.matchAll registry.grammar calls limit).run chart) maxDepth := by
  intro greater hgreater
  have hcalls : Chart.matchAll registry.grammar calls greater =
      Chart.matchAll registry.grammar calls maxDepth := by
    unfold Chart.matchAll
    induction calls with
    | nil => rfl
    | cons call rest ih =>
        have hroom := hdepth call List.mem_cons_self
        have hcall := Chart.roomIrrelevant_of_layered (layered hcoherent hclosed hacyclic)
          (hasDepths hcoherent hclosed hacyclic) call.1
          (hroom.trans (roomFor_le_roomFor hgreater)) hroom
        rw [List.mapM_cons, List.mapM_cons, Chart.tryPattern, Chart.tryPattern, hcall,
          ih fun other hother => hdepth other (List.mem_cons_of_mem _ hother)]
  exact congrFun (congrArg ExceptT.run hcalls) chart

/-- A limit that leaves room for the depths of the registered patterns is not reached by a
parse. -/
theorem unreached_parse (hcoherent : registry.Coherent) (hclosed : registry.Closed)
    (hacyclic : registry.Acyclic) {maxDepth : Int}
    (hdepth : ∀ pattern ∈ registry.patterns, pattern.depth registry.depth ≤ Chart.roomFor maxDepth)
    (text : String) : Unreached (fun limit => registry.parse text limit) maxDepth := by
  intro greater hgreater
  have hpatterns : ∀ position, Chart.tryAll registry.grammar (Chart.roomFor greater) position
      registry.patterns = Chart.tryAll registry.grammar (Chart.roomFor maxDepth) position
        registry.patterns := by
    intro position
    unfold Chart.tryAll
    generalize registry.patterns = patterns at hdepth ⊢
    induction patterns with
    | nil => rfl
    | cons pattern rest ih =>
        have hroom := hdepth pattern List.mem_cons_self
        have hpattern := Chart.roomIrrelevant_of_layered (layered hcoherent hclosed hacyclic)
          (hasDepths hcoherent hclosed hacyclic) pattern
          (hroom.trans (roomFor_le_roomFor hgreater)) hroom
        have hrest := ih fun other hother => hdepth other (List.mem_cons_of_mem _ hother)
        rw [List.forM_eq_forM] at hrest ⊢
        rw [List.forM_cons, List.forM_cons, hpattern, hrest]
  have hfill : Chart.fill registry.grammar registry.patterns greater =
      Chart.fill registry.grammar registry.patterns maxDepth := by
    unfold Chart.fill
    simp only [hpatterns]
  change parse registry text greater = parse registry text maxDepth
  rw [parse, parse, hfill]

/-- Some greater limit leaves room for all depths. -/
theorem exists_limit (patterns : List Pattern) (below : Int → Nat) (maxDepth : Int) :
    ∃ greater, maxDepth ≤ greater ∧
      ∀ pattern ∈ patterns, pattern.depth below ≤ Chart.roomFor greater := by
  refine ⟨max maxDepth (patterns.map (Pattern.depth below)).sum, le_max_left _ _, ?_⟩
  intro pattern hpattern
  have hsum : pattern.depth below ≤ (patterns.map (Pattern.depth below)).sum :=
    List.single_le_sum (by simp) _ (List.mem_map_of_mem hpattern)
  unfold Chart.roomFor
  omega

/-- Registered patterns that are matched on a chart one after another, at any positions and in any
order, give what plain evaluation gives at any limit that is not reached. -/
def CallsAgree (registry : Registry) (text : String) (chart : Chart) : Prop :=
  ∀ (calls : List (Pattern × Int)) (maxDepth : Int),
    (∀ call ∈ calls, call.1 ∈ registry.patterns) →
    Unreached (fun limit => (Chart.matchAll registry.grammar calls limit).run chart) maxDepth →
    ((Chart.matchAll registry.grammar calls maxDepth).run chart).1 =
      .ok (calls.map fun call => registry.evaluate text call.1 call.2)

theorem token_eq_evaluate (hcoherent : registry.Coherent) (hclosed : registry.Closed)
    (hacyclic : registry.Acyclic) (text : String) {pattern : Pattern}
    (hpattern : pattern ∈ registry.patterns) (position : Int) :
    registry.token text pattern.id position = registry.evaluate text pattern position := by
  rw [token_eq hcoherent hclosed hacyclic text (hcoherent.mem_patterns_iff.mp hpattern)]

theorem callsAgree_of_faithful (hcoherent : registry.Coherent) (hclosed : registry.Closed)
    (hacyclic : registry.Acyclic) (hbehind : registry.LooksBehindInSingleFile) {text : String}
    {done : Int → Int → Prop} {chart : Chart}
    (hchart : Chart.Faithful registry.grammar text.toList.toArray (registry.token text) [] done
      chart) :
    registry.CallsAgree text chart := by
  intro calls maxDepth hcalls hunreached
  -- The values are those at a greater limit, which leaves room for all depths.
  obtain ⟨greater, hgreater, hroom⟩ := exists_limit (calls.map Prod.fst) registry.depth maxDepth
  obtain ⟨after, hrun, -⟩ := Chart.settles_matchAll
    (evaluates hcoherent hclosed hacyclic hbehind text)
    (fun call hcall => hcoherent.mem_patterns_iff.mp (hcalls call hcall))
    (fun call hcall => hroom call.1 (List.mem_map_of_mem hcall)) done chart hchart
  have hvalues : (calls.map fun call => registry.token text call.1.id call.2) =
      calls.map fun call => registry.evaluate text call.1 call.2 := by
    refine List.map_congr_left fun call hcall => ?_
    exact token_eq_evaluate hcoherent hclosed hacyclic text (hcalls call hcall) call.2
  have hsame : (Chart.matchAll registry.grammar calls greater).run chart =
      (Chart.matchAll registry.grammar calls maxDepth).run chart := hunreached greater hgreater
  rw [← hsame, hrun, hvalues]

/-- A limit that leaves room for the depth of a pattern is not reached by matching it. -/
theorem unreached_matchText (hcoherent : registry.Coherent) (hclosed : registry.Closed)
    (hacyclic : registry.Acyclic) {pattern : Pattern} {maxDepth : Int}
    (hdepth : pattern.depth registry.depth ≤ Chart.roomFor maxDepth) (text : String) (start : Int) :
    Unreached (fun limit => registry.matchText pattern text start limit) maxDepth := by
  intro greater hgreater
  have hroom := Chart.roomIrrelevant_of_layered (layered hcoherent hclosed hacyclic)
    (hasDepths hcoherent hclosed hacyclic) pattern
    (hdepth.trans (roomFor_le_roomFor hgreater)) hdepth
  change registry.matchText pattern text start greater = registry.matchText pattern text start maxDepth
  rw [matchText, matchText, Chart.tryPattern, Chart.tryPattern, hroom]

/-- With room for its depth a pattern is matched as it is evaluated on every faithful chart that does
not remember another outcome, whether it is registered or carries no registered id. -/
theorem settlesFrom_matchPattern (hcoherent : registry.Coherent) (hclosed : registry.Closed)
    (hacyclic : registry.Acyclic) {text : String} (hretraces : registry.RetracesIn text)
    {pattern : Pattern}
    (hown : (registry.byId? pattern.id).isSome → registry.byId? pattern.id = some pattern)
    (hknown : ∀ id ∈ pattern.content.references, (registry.byId? id).isSome)
    (hbehind : Retraces (registry.token text) pattern.content) {room : Nat}
    (hroom : pattern.depth registry.depth ≤ room) {start : Int} {done : Int → Int → Prop}
    {chart : Chart} (hchart : Chart.Faithful registry.grammar text.toList.toArray
      (registry.token text) [] done chart)
    (hremembered : ∀ outcome, chart.outcome? start pattern.id = some outcome →
      outcome = registry.evaluate text pattern start) :
    SettlesFrom (Chart.Faithful registry.grammar text.toList.toArray (registry.token text) [] done)
      chart (Chart.matchPattern registry.grammar room pattern start)
      (registry.evaluate text pattern start) := by
  have heval := evaluates_of_retracesIn hcoherent hclosed hacyclic hretraces
  have hreferences : ∀ id ∈ pattern.content.references, ∃ below,
      registry.grammar.find? id = some below ∧
        Chart.Transparent registry.grammar text.toList.toArray (registry.token text) registry.rank
          registry.depth below := by
    intro id hid
    obtain ⟨below, hbelow⟩ := Option.isSome_iff_exists.mp (hknown id hid)
    exact ⟨below, hbelow, Chart.transparent heval hbelow⟩
  have habove : ∀ id ∈ pattern.content.references,
      Chart.Above registry.grammar registry.rank [(start, pattern.id)] id := by
    intro id hid cell hcell hfound
    obtain rfl := List.mem_singleton.mp hcell
    exact (heval.layered.refers (hown hfound) id hid).2
  obtain ⟨after, hrun, hafter, -⟩ := Chart.settlesFrom_matchPattern heval hown hreferences hbehind
    hroom List.not_mem_nil habove hchart hremembered
  exact ⟨after, hrun, hafter⟩

/-- On a fresh chart a pattern gives what plain evaluation gives at any limit that is not reached,
whether it is registered or carries no registered id. -/
theorem matchText_eq_evaluate (hcoherent : registry.Coherent) (hclosed : registry.Closed)
    (hacyclic : registry.Acyclic) {text : String} (hretraces : registry.RetracesIn text)
    {pattern : Pattern}
    (hown : (registry.byId? pattern.id).isSome → registry.byId? pattern.id = some pattern)
    (hknown : ∀ id ∈ pattern.content.references, (registry.byId? id).isSome)
    (hbehind : Retraces (registry.token text) pattern.content) {start maxDepth : Int}
    (hunreached : Unreached (fun limit => registry.matchText pattern text start limit) maxDepth) :
    registry.matchText pattern text start maxDepth =
        .ok (registry.evaluate text pattern start) := by
  obtain ⟨greater, hgreater, hroom⟩ := exists_limit [pattern] registry.depth maxDepth
  have hfresh : ∀ outcome, (Chart.ofText text).outcome? start pattern.id = some outcome →
      outcome = registry.evaluate text pattern start := by
    simp
  obtain ⟨after, hrun, -⟩ := settlesFrom_matchPattern hcoherent hclosed hacyclic hretraces hown
    hknown hbehind (hroom pattern List.mem_cons_self) (Chart.faithful_ofText text) hfresh
  have hsame : registry.matchText pattern text start greater =
      registry.matchText pattern text start maxDepth := hunreached greater hgreater
  rw [← hsame, matchText, Chart.tryPattern, hrun]

/-- Matching gives what plain evaluation gives, which knows no memory, no trials under way and no
frontiers: on a fresh chart, for every outcome that a parse records, and on the chart of the
parse. -/
theorem matching_eq_evaluate (hcoherent : registry.Coherent) (hclosed : registry.Closed)
    (hacyclic : registry.Acyclic) (hbehind : registry.LooksBehindInSingleFile) (text : String) :
    registry.CallsAgree text (Chart.ofText text) ∧
      ∀ maxDepth, Unreached (fun limit => registry.parse text limit) maxDepth →
        ∃ chart, registry.parse text maxDepth = .ok chart ∧
          (∀ pattern ∈ registry.patterns, ∀ position : Int,
            (∀ outcome, chart.outcome? position pattern.id = some outcome →
              outcome = registry.evaluate text pattern position) ∧
            (0 ≤ position → position < text.length →
              (chart.outcome? position pattern.id).isSome)) ∧
          registry.CallsAgree text chart := by
  refine ⟨callsAgree_of_faithful hcoherent hclosed hacyclic hbehind
    (Chart.faithful_ofText text), fun maxDepth hunreached => ?_⟩
  have hfind : ∀ pattern ∈ registry.patterns, registry.grammar.find? pattern.id = some pattern :=
    fun pattern hpattern => hcoherent.mem_patterns_iff.mp hpattern
  obtain ⟨greater, hgreater, hroom⟩ := exists_limit registry.patterns registry.depth maxDepth
  obtain ⟨chart, hrun, hchart⟩ := Chart.settles_fill
    (evaluates hcoherent hclosed hacyclic hbehind text) hfind hroom (Chart.faithful_ofText text)
  refine ⟨chart, ?_, ?_, callsAgree_of_faithful hcoherent hclosed hacyclic hbehind hchart⟩
  · have hsame : registry.parse text greater = registry.parse text maxDepth :=
      hunreached greater hgreater
    rw [← hsame, parse, hrun]
  · intro pattern hpattern position
    have hknown : (registry.grammar.find? pattern.id).isSome := by
      rw [hfind pattern hpattern]
      rfl
    constructor
    · intro outcome houtcome
      rw [← token_eq_evaluate hcoherent hclosed hacyclic text hpattern]
      exact hchart.outcome_eq hknown houtcome
    · intro hnonneg hlength
      refine hchart.outcome_of_done ⟨hnonneg, ?_, pattern, hpattern, rfl⟩
      rw [List.size_toArray, String.length_toList]
      exact hlength

/-- Two literals, a pattern that looks behind for the first of them, and a repetition of it. -/
def lookingBack : Registry where
  ledger := #[
    { kind := .literal, content := .literal "a", id := 0 },
    { kind := .literal, content := .literal "b", id := 1 },
    { kind := .derived
      content := .tree (.plainGroup [[.ref 0 .once .behind, .plainRef 1]])
      id := 2 },
    { kind := .derived
      content := .tree (.plainGroup [[.ref 0 ⟨1, Quantity.unlimited⟩ .here, .plainRef 2]])
      id := 3 }]
  entries := [(0, 0), (1, 1), (2, 2), (3, 3)]
  nextId := 4

theorem lookingBack_coherent : lookingBack.Coherent where
  nodup_ids := by decide
  exists_pattern {id serial} hentry := by
    simp only [lookingBack, List.mem_cons, Prod.mk.injEq, List.not_mem_nil, or_false] at hentry
    rcases hentry with ⟨rfl, rfl⟩ | ⟨rfl, rfl⟩ | ⟨rfl, rfl⟩ | ⟨rfl, rfl⟩ <;> exact ⟨_, rfl, rfl⟩

theorem lookingBack_closed : lookingBack.Closed := by
  unfold Closed
  decide

theorem lookingBack_acyclic : lookingBack.Acyclic := by
  refine acyclic_of_decreasing Int.toNat ?_
  rintro id other ⟨pattern, hpattern, hother⟩
  have hlower : ∀ pattern ∈ lookingBack.patterns, ∀ other ∈ pattern.content.references,
      other.toNat < pattern.id.toNat := by decide
  have hid := lookingBack_coherent.id_eq hpattern
  subst hid
  exact hlower pattern (lookingBack_coherent.mem_patterns_iff.mpr hpattern) other hother

theorem lookingBack_looksBehindInSingleFile : lookingBack.LooksBehindInSingleFile := by
  intro pattern hpattern root hcontent node hwithin hlook
  have hpatterns : lookingBack.patterns = lookingBack.ledger.toList := rfl
  rw [hpatterns] at hpattern
  simp only [lookingBack, List.mem_cons, List.not_mem_nil, or_false] at hpattern
  rcases hpattern with rfl | rfl | rfl | rfl
  · cases hcontent
  · cases hcontent
  · cases hcontent
    simp only [Node.plainGroup, Node.plainRef, Node.within_group_iff, Node.within_ref_iff,
      List.mem_cons, List.not_mem_nil, or_false, exists_eq_or_imp, exists_eq_left] at hwithin
    rcases hwithin with rfl | rfl | rfl
    · cases hlook
    · exact .ref 0 .once .behind
    · cases hlook
  · cases hcontent
    simp only [Node.plainGroup, Node.plainRef, Node.within_group_iff, Node.within_ref_iff,
      List.mem_cons, List.not_mem_nil, or_false, exists_eq_or_imp, exists_eq_left] at hwithin
    rcases hwithin with rfl | rfl | rfl <;> cases hlook

/-- The hypotheses hold of a registry with a look behind, at a limit of eight. -/
theorem matching_eq_evaluate_lookingBack :
    ((Chart.matchAll lookingBack.grammar (lookingBack.patterns.map fun pattern => (pattern, 2))
        8).run (Chart.ofText "aab")).1 =
      .ok (lookingBack.patterns.map fun pattern => lookingBack.evaluate "aab" pattern 2) ∧
    ∃ chart, lookingBack.parse "aab" 8 = .ok chart ∧ lookingBack.CallsAgree "aab" chart := by
  obtain ⟨hfresh, hparse⟩ := matching_eq_evaluate lookingBack_coherent lookingBack_closed
    lookingBack_acyclic lookingBack_looksBehindInSingleFile "aab"
  have hdepth : ∀ pattern ∈ lookingBack.patterns,
      pattern.depth lookingBack.depth ≤ Chart.roomFor 8 := by decide
  constructor
  · have hcalls := hfresh (lookingBack.patterns.map fun pattern => (pattern, 2)) 8 (by simp)
      (unreached_matchAll lookingBack_coherent lookingBack_closed lookingBack_acyclic
        (by simpa using hdepth) _)
    rw [hcalls, List.map_map]
    rfl
  · obtain ⟨chart, hchart, -, hcalls⟩ := hparse 8 (unreached_parse lookingBack_coherent
      lookingBack_closed lookingBack_acyclic hdepth "aab")
    exact ⟨chart, hchart, hcalls⟩

end Registry

end Motif
