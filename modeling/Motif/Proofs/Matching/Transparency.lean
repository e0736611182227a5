import Motif.Proofs.Matching.Depth
import Motif.Proofs.Matching.LookBehind
import Motif.Proofs.Matching.Submatches

/-!
# Transparency of the chart

With room for its depth, matching a pattern on a faithful chart ends with the token of plain
evaluation and leaves the chart faithful. No trial that is under way is ever met again, because
matching descends to patterns of lower rank only.
-/

namespace Motif

namespace Evaluation

theorem lookedBehind_eq (quantity : Quantity) (list : List Int) (start : Int) :
    lookedBehind quantity (list ≠ []) start =
      if (!list.isEmpty) ≠ quantity.isNegative then some ⟨start, []⟩ else none := by
  cases list <;> by_cases hnever : quantity.most = 0 <;>
    simp [lookedBehind, Quantity.isNegative, hnever]

/-- The tokens are those of plain evaluation of the patterns of a grammar in a text, the patterns
have ranks and depths, and every look behind can be retraced. -/
structure Evaluates (grammar : Grammar) (text : Array Char) (token : Int → Int → Option Token)
    (rank depth : Int → Nat) : Prop where
  layered : grammar.Layered rank
  depths : grammar.HasDepths depth
  token_eq : ∀ ⦃id pattern⦄, grammar.find? id = some pattern →
    token id = evalWith token text pattern
  fits : ∀ ⦃id position found⦄, token id position = some found → Fits text id position found
  retraceable : ∀ ⦃id pattern root node⦄, grammar.find? id = some pattern →
    pattern.content = .tree root → Node.Within node root → node.look = .behind →
      node.Retraceable (Unambiguous token)

end Evaluation

namespace Chart

open Evaluation

theorem spells_eq (text : Array Char) (position : Nat) (word : List Char) :
    spells text position word = word.isPrefixOf (text.toList.drop position) := by
  induction word generalizing position with
  | nil => rfl
  | cons first rest ih =>
      rw [spells, ih, ← List.drop_drop]
      cases hdrop : text.toList.drop position with
      | nil =>
          have hnone : text[position]? = none := by
            rw [← Array.getElem?_toList, List.getElem?_eq_none_iff]
            exact List.drop_eq_nil_iff.mp hdrop
          simp [hnone]
      | cons head tail =>
          have hsome : text[position]? = some head := by
            rw [← Array.getElem?_toList, ← List.head?_drop, hdrop]
            rfl
          simp [hsome, List.isPrefixOf, eq_comm (a := head), beq_eq_decide]

section Nodes

variable {invariant : Chart → Prop} {behind : Node → Int → Action (Option Int)}
  {once : Node → Int → Action (Option Reach)}

theorem settles_nodeStep_behind (node : Node) (hlook : node.look = .behind) {list : List Int}
    {start : Int} (hbehind : Finds invariant (behind node (start - 1)) list) :
    Settles invariant (nodeStep behind once node start)
      (lookedBehind node.quantity (list ≠ []) start) := by
  intro chart hchart
  obtain ⟨value, hsettles, hvalue⟩ := hbehind chart hchart
  have hfound : value.isSome = !list.isEmpty := by
    cases value with
    | none =>
        rw [show list = [] from hvalue]
        rfl
    | some found =>
        have hne : list ≠ [] := List.ne_nil_of_mem (show found ∈ list from hvalue)
        simp [hne]
  unfold nodeStep
  rw [if_pos hlook, lookedBehind_eq, ← hfound]
  exact hsettles.bind (.pure _)

theorem settles_nodeStep_forward (node : Node) (hlook : node.look ≠ .behind) {size : Nat}
    (hsize : ∀ chart, invariant chart → chart.text.size = size) {value : Int → Option Reach}
    (honce : ∀ position, Settles invariant (once node position) (value position)) (start : Int) :
    Settles invariant (nodeStep behind once node start)
      (quantified size node.quantity node.look value start) := by
  unfold nodeStep
  rw [if_neg hlook]
  refine .read fun chart hchart => ?_
  rw [hsize chart hchart, ← outcomeOf_runOf]
  exact (settles_repeatMatch honce _ start chart hchart).bind (.pure _)

end Nodes

variable {grammar : Grammar} {text : Array Char} {token : Int → Int → Option Token}
  {rank depth : Int → Nat}

/-- With so much room a reference is answered by the tokens of its id: one occurrence is such a
token, and going back finds the start of one. -/
structure Answers (invariant : Chart → Prop) (grammar : Grammar)
    (token : Int → Int → Option Token) (room : Nat) (id : Int) : Prop where
  once : ∀ quantity look (fallback : Node → Int → Action (Option Reach)) position,
    Settles invariant
      (onceStep grammar (matchPattern grammar room) fallback (.ref id quantity look) position)
      ((token id position).map ofToken)
  behind : ∀ quantity look last,
    Finds invariant (matchBehind grammar (room + 1) (.ref id quantity look) last)
      (starts token (.ref id quantity look) (last + 1))

section Answers

variable {invariant : Chart → Prop}

/-- Going back through a node finds one of its starts, if it has any. -/
theorem finds_matchBehind {node : Node} (hnode : node.Retraceable (Unambiguous token))
    (hanswers : ∀ id ∈ node.references, ∀ room, depth id ≤ room →
      Answers invariant grammar token room id)
    {room : Nat} (hroom : node.depth depth ≤ room) (last : Int) :
    Finds invariant (matchBehind grammar room node last) (starts token node (last + 1)) := by
  induction hnode generalizing room last with
  | ref id quantity look =>
      obtain ⟨room, rfl⟩ := Node.exists_room hroom
      exact (hanswers id (by simp) room (Nat.le_of_succ_le_succ hroom)).behind quantity look last
  | @group alternatives quantity look hnonempty _ hrest ih =>
      obtain ⟨room, rfl⟩ := Node.exists_room hroom
      have hchild : ∀ sequence ∈ alternatives, ∀ child ∈ sequence, ∀ last,
          Finds invariant (matchBehind grammar room child last)
            (starts token child (last + 1)) := by
        intro sequence hsequence child hmem last
        have hlt := Node.depth_lt_depth_group depth hsequence hmem quantity look
        exact ih sequence hsequence child hmem (fun id hid => hanswers id
          (Node.mem_references_group.mpr ⟨sequence, hsequence, child, hmem, hid⟩)) (by omega) last
      rw [matchBehind]
      intro chart hchart
      simp only [behindStep]
      split
      next hlast =>
        refine ⟨none, .pure hchart _, ?_⟩
        exact starts_eq_nil_of_nonpos (.group quantity look hnonempty ‹_› hrest) (by omega)
      next hlast =>
        rw [starts]
        exact finds_behindAlternatives hnonempty hchild hrest last chart hchart

/-- A node is matched as it is evaluated. -/
theorem settles_matchNode {size : Nat}
    (hsize : ∀ chart, invariant chart → chart.text.size = size) (node : Node)
    (hbehind : ∀ child, Node.Within child node → child.look = .behind →
      child.Retraceable (Unambiguous token))
    (hanswers : ∀ id ∈ node.references, ∀ room, depth id ≤ room →
      Answers invariant grammar token room id)
    {room : Nat} (hroom : node.depth depth ≤ room) (start : Int) :
    Settles invariant (matchNode grammar room node start) (evalNode token size node start) := by
  induction node using Node.memberInduction generalizing room start with
  | ref id quantity look =>
      obtain ⟨more, rfl⟩ := Node.exists_room hroom
      rw [evalNode, matchNode]
      split
      next hlook =>
        refine settles_nodeStep_behind (.ref id quantity look) hlook ?_
        have hfinds := finds_matchBehind (hbehind _ (.root _) hlook) hanswers hroom (start - 1)
        rwa [Int.sub_add_cancel, matchBehind] at hfinds
      next hlook =>
        refine settles_nodeStep_forward (.ref id quantity look) hlook hsize ?_ start
        exact (hanswers id (by simp) more (Nat.le_of_succ_le_succ hroom)).once quantity look _
  | group alternatives quantity look ih =>
      obtain ⟨more, rfl⟩ := Node.exists_room hroom
      rw [evalNode, matchNode]
      split
      next hlook =>
        refine settles_nodeStep_behind (.group alternatives quantity look) hlook ?_
        have hfinds := finds_matchBehind (hbehind _ (.root _) hlook) hanswers hroom (start - 1)
        rwa [Int.sub_add_cancel, matchBehind, starts] at hfinds
      next hlook =>
        refine settles_nodeStep_forward (.group alternatives quantity look) hlook hsize ?_ start
        intro position
        refine settles_matchAlternatives (fun sequence hsequence child hmem position => ?_) position
        have hlt := Node.depth_lt_depth_group depth hsequence hmem quantity look
        exact ih sequence hsequence child hmem
          (fun other hother => hbehind other (.inside hsequence hmem hother))
          (fun id hid => hanswers id
            (Node.mem_references_group.mpr ⟨sequence, hsequence, child, hmem, hid⟩))
          (by omega) position

end Answers

/-- No trial of a list is one of a pattern of the same rank or of a lower one. -/
def Above (grammar : Grammar) (rank : Int → Nat) (active : List Cell) (id : Int) : Prop :=
  ∀ cell ∈ active, (grammar.find? cell.2).isSome → rank id < rank cell.2

/-- With room for its depth and only trials of patterns of higher rank under way, a pattern is
matched as it is evaluated; inside the text the outcome is remembered. -/
def Transparent (grammar : Grammar) (text : Array Char) (token : Int → Int → Option Token)
    (rank depth : Int → Nat) (pattern : Pattern) : Prop :=
  ∀ ⦃room⦄, pattern.depth depth ≤ room → ∀ ⦃active⦄, Above grammar rank active pattern.id →
    ∀ done (start : Int) chart, Faithful grammar text token active done chart →
      SettlesFrom (fun after => Faithful grammar text token active done after ∧
          (0 ≤ start → start < text.size → (after.outcome? start pattern.id).isSome))
        chart (matchPattern grammar room pattern start) (token pattern.id start)

/-- With so much room, on charts that remember all trials that are done and perhaps others, a
pattern is matched by its tokens; inside the text the outcome is remembered. -/
def Matched (grammar : Grammar) (text : Array Char) (token : Int → Int → Option Token)
    (active : List Cell) (done : Int → Int → Prop) (room : Nat) (pattern : Pattern) : Prop :=
  ∀ more, (∀ position id, done position id → more position id) →
    ∀ (start : Int) chart, Faithful grammar text token active more chart →
      SettlesFrom (fun after => Faithful grammar text token active more after ∧
          (0 ≤ start → start < text.size → (after.outcome? start pattern.id).isSome))
        chart (matchPattern grammar room pattern start) (token pattern.id start)

theorem Transparent.matched {pattern : Pattern}
    (hpattern : Transparent grammar text token rank depth pattern) {room : Nat}
    (hroom : pattern.depth depth ≤ room) {active : List Cell}
    (habove : Above grammar rank active pattern.id) (done : Int → Int → Prop) :
    Matched grammar text token active done room pattern :=
  fun more _ => hpattern hroom habove more

section Scanning

variable {active : List Cell} {done : Int → Int → Prop} {room : Nat} {pattern : Pattern}

theorem Matched.mono {more : Int → Int → Prop}
    (hpattern : Matched grammar text token active done room pattern)
    (hmore : ∀ position id, done position id → more position id) :
    Matched grammar text token active more room pattern :=
  fun most hmost => hpattern most fun position id hdone =>
    hmost position id (hmore position id hdone)

/-- Trying a pattern at positions in order leaves an outcome at each of them. -/
theorem settles_scan (hpattern : Matched grammar text token active done room pattern) (count : Nat)
    (position : Int) {chart : Chart} (hchart : Faithful grammar text token active done chart) :
    SettlesFrom (fun after => Faithful grammar text token active done after ∧
        ∀ place, position ≤ place → place < position + count → 0 ≤ place → place < text.size →
          (after.outcome? place pattern.id).isSome)
      chart (scan (matchPattern grammar room pattern) pattern.id count position) () := by
  -- Each trial that has been made joins those that are done, which the next one leaves alone.
  induction count generalizing position done chart with
  | zero =>
      refine .pure ⟨hchart, ?_⟩ _
      intro place hlow hhigh
      omega
  | succ count ih =>
      obtain ⟨middle, hrun, hmiddle, htried⟩ := hpattern done (fun _ _ => id) position chart hchart
      obtain ⟨after, hafter, hfaithful, hplaces⟩ :=
        ih (hpattern.mono fun _ _ => .inl) (position + 1) (hmiddle.tried htried)
      refine ⟨after, ?_, hfaithful.weaken fun _ _ => .inl, ?_⟩
      · rw [scan]
        refine (run_bind_of_ok hrun).trans ?_
        exact hafter
      · intro place hlow hhigh hnonneg hsize
        by_cases hplace : place = position
        · exact hfaithful.outcome_of_done (.inr ⟨rfl, hplace, hnonneg, hsize⟩)
        · exact hplaces place (by omega) (by omega) hnonneg hsize

/-- Trying a pattern in order from its frontier on leaves an outcome at every position up to the
last one. -/
theorem settles_scan_frontier (hpattern : Matched grammar text token active done room pattern)
    (hknown : (grammar.find? pattern.id).isSome) (last : Int) {chart : Chart}
    (hchart : Faithful grammar text token active done chart) :
    SettlesFrom (fun after => Faithful grammar text token active done after ∧
        ∀ place, 0 ≤ place → place ≤ last → place < text.size →
          (after.outcome? place pattern.id).isSome)
      chart (scan (matchPattern grammar room pattern) pattern.id
        (last + 1 - chart.scannedUntil pattern.id).toNat (chart.scannedUntil pattern.id)) () := by
  -- The outcomes up to the frontier are there already and stay there.
  have hready : Faithful grammar text token active
      (fun place other => done place other ∨ other = pattern.id ∧ 0 ≤ place ∧
        place < chart.scannedUntil pattern.id ∧ place < text.size) chart := by
    refine hchart.withDone ?_
    rintro place other (hplace | ⟨rfl, hnonneg, hscanned, hsize⟩)
    · exact hchart.outcome_of_done hplace
    · exact hchart.outcome_of_scanned hknown hnonneg hscanned hsize
  obtain ⟨after, hrun, hafter, hscanned⟩ := settles_scan (hpattern.mono fun _ _ => .inl)
    (last + 1 - chart.scannedUntil pattern.id).toNat (chart.scannedUntil pattern.id) hready
  refine ⟨after, hrun, hafter.weaken fun _ _ => .inl, ?_⟩
  intro place hnonneg hlast hsize
  by_cases hplace : place < chart.scannedUntil pattern.id
  · exact hafter.outcome_of_done (.inr ⟨rfl, hnonneg, hplace, hsize⟩)
  · exact hscanned place (by omega) (by omega) hnonneg hsize

end Scanning

/-- The token of a pattern that ends at a position is found in the chart as soon as the pattern has
been tried at every position up to there. -/
theorem tail?_of_outcomes
    (hfits : ∀ ⦃id position found⦄, token id position = some found → Fits text id position found)
    {active : List Cell} {done : Int → Int → Prop} {chart : Chart}
    (hchart : Faithful grammar text token active done chart) {id : Int}
    (hknown : (grammar.find? id).isSome) {last : Int}
    (houtcome : ∀ place, 0 ≤ place → place ≤ last → place < text.size →
      (chart.outcome? place id).isSome) (quantity : Quantity) (look : Look) :
    match (chart.tail? last id).map Token.start with
    | none => starts token (.ref id quantity look) (last + 1) = []
    | some start => start ∈ starts token (.ref id quantity look) (last + 1) := by
  cases htail : chart.tail? last id with
  | some found =>
      obtain ⟨htoken, hlast, hlength⟩ := hchart.token_of_tail hknown htail
      have hnonneg := (hfits htoken).start_nonneg
      unfold Token.last at hlast
      refine mem_starts_ref.mpr ⟨hnonneg, by omega, found, htoken, ?_⟩
      unfold Token.stop
      omega
  | none =>
      refine List.eq_nil_iff_forall_not_mem.mpr fun start hstart => ?_
      obtain ⟨hnonneg, hlt, found, htoken, hstop⟩ := mem_starts_ref.mp hstart
      have hsize := (hfits htoken).stop_le
      obtain ⟨outcome, hfound⟩ := Option.isSome_iff_exists.mp
        (houtcome start hnonneg (by omega) (by omega))
      rw [hchart.outcome_eq hknown hfound, htoken] at hfound
      have hstart := (hfits htoken).start_eq
      unfold Token.stop at hstop
      have hlast : found.last = last := by
        unfold Token.last
        omega
      have hsome := hchart.tail_of_outcome hknown hfound (by omega)
      rw [hlast, htail] at hsome
      cases hsome

section References

variable
  (hfits : ∀ ⦃id position found⦄, token id position = some found → Fits text id position found)
  {pattern : Pattern} (hfind : grammar.find? pattern.id = some pattern) {active : List Cell}
  {done : Int → Int → Prop} {room : Nat}
  (hpattern : Matched grammar text token active done room pattern)
include hfind hpattern

/-- One occurrence of a reference is a token of its pattern. -/
theorem settles_onceStep_ref (quantity : Quantity) (look : Look)
    (fallback : Node → Int → Action (Option Reach)) (position : Int) :
    Settles (Faithful grammar text token active done)
      (onceStep grammar (matchPattern grammar room) fallback (.ref pattern.id quantity look)
        position)
      ((token pattern.id position).map ofToken) := by
  have hsettles : Settles (Faithful grammar text token active done)
      (matchPattern grammar room pattern position) (token pattern.id position) := by
    intro chart hchart
    obtain ⟨after, hrun, hafter, -⟩ := hpattern done (fun _ _ => id) position chart hchart
    exact ⟨after, hrun, hafter⟩
  simp only [onceStep, Grammar.get, hfind, lift_ok_bind]
  refine hsettles.bind ?_
  cases token pattern.id position with
  | none => exact .pure _
  | some found =>
      have hreach : (⟨found.stop, if found.length ≠ 0 then [found] else []⟩ : Reach) =
          ofToken found := by
        by_cases hlength : found.length = 0 <;> simp [ofToken, hlength]
      dsimp only
      rw [hreach]
      exact .pure _

include hfits

/-- Going back through a reference finds the start of a token that ends there, if there is one. -/
theorem finds_matchBehind_ref (quantity : Quantity) (look : Look) (last : Int) :
    Finds (Faithful grammar text token active done)
      (matchBehind grammar (room + 1) (.ref pattern.id quantity look) last)
      (starts token (.ref pattern.id quantity look) (last + 1)) := by
  have hknown : (grammar.find? pattern.id).isSome := by simp [hfind]
  rw [matchBehind]
  intro chart hchart
  simp only [behindStep, Grammar.get, hfind, lift_ok_bind]
  split
  next hlast =>
    refine ⟨none, .pure hchart _, ?_⟩
    exact starts_eq_nil_of_nonpos
      (.ref pattern.id quantity look : Node.Retraceable (fun _ => True) _) (by omega)
  next hlast =>
    obtain ⟨after, hrun, hafter, houtcome⟩ := settles_scan_frontier hpattern hknown last hchart
    refine ⟨(after.tail? last pattern.id).map Token.start, ⟨after, ?_, hafter⟩, ?_⟩
    · refine (run_read_bind chart).trans ?_
      exact (run_bind_of_ok hrun).trans rfl
    · exact tail?_of_outcomes hfits hafter hknown houtcome quantity look

/-- A pattern that is matched by its tokens answers the references to it. -/
theorem answers_of_matched :
    Answers (Faithful grammar text token active done) grammar token room pattern.id :=
  ⟨settles_onceStep_ref hfind hpattern, finds_matchBehind_ref hfits hfind hpattern⟩

end References

/-- The patterns to which a node refers, if they are transparent, answer its references. -/
theorem answers_of_transparent (heval : Evaluates grammar text token rank depth) {node : Node}
    (hpattern : ∀ id ∈ node.references, ∃ pattern, grammar.find? id = some pattern ∧
      Transparent grammar text token rank depth pattern)
    {active : List Cell} (habove : ∀ id ∈ node.references, Above grammar rank active id)
    (done : Int → Int → Prop) :
    ∀ id ∈ node.references, ∀ room, depth id ≤ room →
      Answers (Faithful grammar text token active done) grammar token room id := by
  intro id hid room hroom
  obtain ⟨pattern, hfind, htransparent⟩ := hpattern id hid
  obtain rfl : pattern.id = id := heval.layered.id_eq hfind
  rw [heval.depths hfind] at hroom
  exact answers_of_matched heval.fits hfind (htransparent.matched hroom (habove _ hid) done)

/-- Inside the text a pattern is built as it is evaluated. -/
theorem settles_build {invariant : Chart → Prop} {node : Node → Int → Action (Option Reach)}
    (htext : ∀ chart, invariant chart → chart.text = text) {pattern : Pattern} {start : Int}
    (hnonneg : 0 ≤ start) (hsize : start < text.size)
    (hroot : ∀ root, pattern.content = .tree root →
      Settles invariant (node root start) (evalNode token text.size root start)) :
    Settles invariant (build node pattern start) (evalWith token text pattern start) := by
  unfold build evalWith
  rw [if_pos ⟨hnonneg, hsize⟩]
  cases hcontent : pattern.content with
  | literal word =>
      refine .read fun chart hchart => ?_
      have hfound : (!word.isEmpty && spells chart.text start.toNat word.toList) =
          decide (word ≠ "" ∧ word.toList <+: text.toList.drop start.toNat) := by
        rw [htext chart hchart, spells_eq, Bool.eq_iff_iff]
        simp
      rw [hfound]
      simp only [decide_eq_true_eq]
      exact .pure hchart _
  | tree root =>
      refine (hroot root hcontent).bind ?_
      dsimp only
      cases evalNode token text.size root start with
      | none => exact .pure _
      | some reach =>
          refine .read fun chart hchart => ?_
          rw [htext chart hchart]
          exact .pure hchart _

theorem run_guarded {α : Type} {trial : Action α} {chart middle : Chart} {result : Except Fault α}
    (hrun : trial.run chart = (result, middle)) (position id : Int) :
    (guarded position id trial).run chart = (result, middle.leave position id) := by
  unfold guarded
  rw [ExceptT.run_mk]
  change StateT.run (trial.run >>= _) chart = _
  rw [StateT.run_bind]
  change (do let result ← trial.run chart; _) = _
  rw [hrun]
  rfl

/-- A trial that is not under way builds the token while it is, and remembers it afterwards. -/
theorem run_attempt {node : Node → Int → Action (Option Reach)} {pattern : Pattern} {start : Int}
    {outcome : Option Token} {chart middle after : Chart}
    (hfree : (start, pattern.id) ∉ chart.active)
    (hbuild : (build node pattern start).run
      { chart with active := (start, pattern.id) :: chart.active } = (.ok outcome, middle))
    (hremember : (remember start pattern.id outcome).run (middle.leave start pattern.id) =
      (.ok (), after)) :
    (attempt node pattern start).run chart = (.ok outcome, after) := by
  unfold attempt
  refine (run_bind_of_ok (run_enter hfree)).trans ?_
  refine (run_bind_of_ok (run_guarded hbuild start pattern.id)).trans ?_
  exact (run_bind_of_ok hremember).trans rfl

/-- A trial that is not under way ends with the value of its pattern and remembers it. -/
theorem settlesFrom_attempt (heval : Evaluates grammar text token rank depth) {pattern : Pattern}
    (hvalue : (grammar.find? pattern.id).isSome → grammar.find? pattern.id = some pattern)
    (hreferences : ∀ id ∈ pattern.content.references, ∃ below, grammar.find? id = some below ∧
      Transparent grammar text token rank depth below)
    (hbehind : ∀ root node, pattern.content = .tree root → Node.Within node root →
      node.look = .behind → node.Retraceable (Unambiguous token))
    {room : Nat} (hroom : pattern.depth depth ≤ room + 1) {active : List Cell} {start : Int}
    (hfree : (start, pattern.id) ∉ active)
    (habove : ∀ id ∈ pattern.content.references,
      Above grammar rank ((start, pattern.id) :: active) id)
    (hnonneg : 0 ≤ start) (hsize : start < text.size) {done : Int → Int → Prop} {chart : Chart}
    (hchart : Faithful grammar text token active done chart) :
    SettlesFrom (fun after => Faithful grammar text token active done after ∧
        (after.outcome? start pattern.id).isSome)
      chart (attempt (matchNode grammar room) pattern start)
      (evalWith token text pattern start) := by
  have hbuild : Settles (Faithful grammar text token ((start, pattern.id) :: active) done)
      (build (matchNode grammar room) pattern start) (evalWith token text pattern start) := by
    refine settles_build (fun chart hchart => hchart.text_eq) hnonneg hsize fun root hcontent => ?_
    rw [hcontent] at hreferences habove
    rw [Pattern.depth, hcontent] at hroom
    exact settles_matchNode (fun chart hchart => by rw [hchart.text_eq]) root
      (fun node hwithin => hbehind root node hcontent hwithin)
      (answers_of_transparent heval hreferences habove done) (Nat.le_of_succ_le_succ hroom) start
  obtain ⟨middle, hrun, hmiddle⟩ := hbuild _ (hchart.withActive ((start, pattern.id) :: active))
  rw [← hchart.active_eq] at hrun hfree
  have hleave : Faithful grammar text token active done (middle.leave start pattern.id) := by
    rw [leave_eq hmiddle.active_eq]
    exact hmiddle.withActive active
  -- What is remembered has to be true of the pattern that the grammar has under this id.
  have hfits : ∀ found, evalWith token text pattern start = some found →
      Fits text pattern.id start found := fun found hfound =>
    fits_of_evalWith (fun id _ position other hother => heval.fits hother) hfound
  have htoken : (grammar.find? pattern.id).isSome →
      evalWith token text pattern start = token pattern.id start := fun hknown => by
    rw [heval.token_eq (hvalue hknown)]
  obtain ⟨after, hafter, hfaithful, houtcome⟩ := hleave.remember hfits htoken
  exact ⟨after, run_attempt hfree hrun hafter, hfaithful, by simp [houtcome]⟩

/-- With room for its depth a pattern is matched as it is evaluated, also one that is not in the
grammar, if the patterns to which it refers are transparent and no other outcome is remembered. -/
theorem settlesFrom_matchPattern (heval : Evaluates grammar text token rank depth)
    {pattern : Pattern}
    (hvalue : (grammar.find? pattern.id).isSome → grammar.find? pattern.id = some pattern)
    (hreferences : ∀ id ∈ pattern.content.references, ∃ below, grammar.find? id = some below ∧
      Transparent grammar text token rank depth below)
    (hbehind : ∀ root node, pattern.content = .tree root → Node.Within node root →
      node.look = .behind → node.Retraceable (Unambiguous token))
    {room : Nat} (hroom : pattern.depth depth ≤ room) {active : List Cell} {start : Int}
    (hfree : (start, pattern.id) ∉ active)
    (habove : ∀ id ∈ pattern.content.references,
      Above grammar rank ((start, pattern.id) :: active) id)
    {done : Int → Int → Prop} {chart : Chart}
    (hchart : Faithful grammar text token active done chart)
    (hremembered : ∀ outcome, chart.outcome? start pattern.id = some outcome →
      outcome = evalWith token text pattern start) :
    SettlesFrom (fun after => Faithful grammar text token active done after ∧
        (0 ≤ start → start < text.size → (after.outcome? start pattern.id).isSome))
      chart (matchPattern grammar room pattern start) (evalWith token text pattern start) := by
  obtain ⟨room, rfl⟩ := Pattern.exists_room hroom
  have hcovers : chart.covers start = decide (0 ≤ start ∧ start < text.size) := by
    rw [covers, size, hchart.text_eq, Bool.decide_and]
  rw [matchPattern]
  unfold recalled
  refine .read ?_
  rw [hcovers]
  by_cases hinside : 0 ≤ start ∧ start < text.size
  · rw [decide_eq_true hinside, Bool.not_true, if_neg Bool.false_ne_true]
    refine .read ?_
    cases houtcome : chart.outcome? start pattern.id with
    | some outcome =>
        rw [← hremembered outcome houtcome]
        exact .pure ⟨hchart, fun _ _ => by simp [houtcome]⟩ _
    | none =>
        obtain ⟨after, hrun, hafter, htried⟩ := settlesFrom_attempt heval hvalue hreferences hbehind
          hroom hfree habove hinside.1 hinside.2 hchart
        exact ⟨after, hrun, hafter, fun _ _ => htried⟩
  · rw [decide_eq_false hinside, Bool.not_false, if_pos rfl, evalWith, if_neg hinside]
    exact .pure ⟨hchart, fun hnonneg hsize => absurd ⟨hnonneg, hsize⟩ hinside⟩ _

/-- With room for its depth a pattern is transparent, if the patterns to which it refers are. -/
theorem transparent_of_references (heval : Evaluates grammar text token rank depth) {id : Int}
    {pattern : Pattern} (hfind : grammar.find? id = some pattern)
    (hreferences : ∀ other ∈ pattern.content.references, ∃ below,
      grammar.find? other = some below ∧ Transparent grammar text token rank depth below) :
    Transparent grammar text token rank depth pattern := by
  intro room hroom active habove done start chart hchart
  have hid : pattern.id = id := heval.layered.id_eq hfind
  subst hid
  have hbelow : ∀ other ∈ pattern.content.references,
      Above grammar rank ((start, pattern.id) :: active) other := by
    intro other hother cell hcell hknown
    have hrank := (heval.layered.refers hfind other hother).2
    rcases List.mem_cons.mp hcell with rfl | hcell
    · exact hrank
    · exact hrank.trans (habove cell hcell hknown)
  -- A trial of the pattern itself that was under way would be one of higher rank.
  have hfree : (start, pattern.id) ∉ active := fun hmem =>
    Nat.lt_irrefl _ (habove _ hmem (by simp [hfind]))
  rw [heval.token_eq hfind]
  apply settlesFrom_matchPattern heval (fun _ => hfind) hreferences
    (fun root node => heval.retraceable hfind) hroom hfree hbelow hchart
  intro outcome houtcome
  rw [hchart.outcome_eq (by simp [hfind]) houtcome, heval.token_eq hfind]

/-- With room for its depth every pattern of the grammar is transparent. -/
theorem transparent (heval : Evaluates grammar text token rank depth) {id : Int}
    {pattern : Pattern} (hfind : grammar.find? id = some pattern) :
    Transparent grammar text token rank depth pattern := by
  -- The induction is on the rank, since references lead to lower ranks.
  induction hrank : rank id using Nat.strong_induction_on generalizing id pattern with
  | _ value ih =>
      refine transparent_of_references heval hfind fun other hother => ?_
      obtain ⟨hknown, hlower⟩ := heval.layered.refers hfind other hother
      obtain ⟨below, hbelow⟩ := Option.isSome_iff_exists.mp hknown
      exact ⟨below, hbelow, ih (rank other) (hrank ▸ hlower) hbelow rfl⟩

end Chart

end Motif
