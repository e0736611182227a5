import Motif.Proofs.Matching.Alike
import Motif.Proofs.Matching.Sharing

/-!
# Remembering at a low limit

A trial for which there is no room leaves no outcome, but the trial that has led to it does, and
what is remembered is not tried again. So a pattern that has first been tried in the depth of
another one may be missed where it would be found from the top, and a greater limit may find less
than a smaller one. What is remembered of a pattern is right, for this limit and all greater ones,
if neither it nor any pattern to which it leads is ever tried with some room that is too little for
its depth.
-/

namespace Motif

namespace Grammar

open Classical in
/-- The patterns of a grammar that have certain ids. -/
noncomputable def only (grammar : Grammar) (kept : Int → Prop) : Grammar where
  find? id := if kept id then grammar.find? id else none

/-- The patterns that are kept refer to such patterns only. -/
def Encloses (grammar : Grammar) (kept : Int → Prop) : Prop :=
  ∀ ⦃id pattern⦄, kept id → grammar.find? id = some pattern →
    ∀ other ∈ pattern.content.references, kept other

variable {grammar : Grammar} {kept : Int → Prop} {id : Int}

theorem find?_only_of_kept (hid : kept id) : (grammar.only kept).find? id = grammar.find? id :=
  if_pos hid

theorem find?_only_eq_some_iff {pattern : Pattern} :
    (grammar.only kept).find? id = some pattern ↔ kept id ∧ grammar.find? id = some pattern := by
  simp [only]

theorem kept_of_isSome (hid : ((grammar.only kept).find? id).isSome) : kept id := by
  obtain ⟨pattern, hpattern⟩ := Option.isSome_iff_exists.mp hid
  exact (find?_only_eq_some_iff.mp hpattern).1

end Grammar

/-! ## Room that is left -/

/-- With so much room for a node, so much is left when the pattern of an id is tried for it. -/
inductive Node.Leaves : Node → Nat → Int → Nat → Prop where
  | ref (id : Int) (quantity : Quantity) (look : Look) (left : Nat) :
      Leaves (.ref id quantity look) (left + 1) id left
  | inside {alternatives : List (List Node)} {sequence : List Node} {child : Node}
      {room : Nat} {id : Int} {left : Nat} (hsequence : sequence ∈ alternatives)
      (hchild : child ∈ sequence) (quantity : Quantity) (look : Look)
      (hleaves : Leaves child room id left) :
      Leaves (.group alternatives quantity look) (room + 1) id left

theorem Node.Leaves.mem_references {node : Node} {room : Nat} {id : Int} {left : Nat}
    (hleaves : node.Leaves room id left) : id ∈ node.references := by
  induction hleaves with
  | ref id quantity look left => simp
  | inside hsequence hchild quantity look _ ih =>
      exact Node.mem_references_group.mpr ⟨_, hsequence, _, hchild, ih⟩

/-- When all patterns are tried with so much room, the pattern of an id is tried, from the top or in
the depth of others, with so much room left. -/
inductive Grammar.Attempts (grammar : Grammar) (top : Nat) : Int → Nat → Prop where
  | top {id : Int} (hknown : (grammar.find? id).isSome) : Attempts grammar top id top
  | deeper {id other : Int} {room left : Nat} {pattern : Pattern} {root : Node}
      (hattempts : Attempts grammar top id (room + 1)) (hfind : grammar.find? id = some pattern)
      (hroot : pattern.content = .tree root) (hleaves : root.Leaves room other left) :
      Attempts grammar top other left

namespace Grammar

/-- None of these patterns is tried with too little room: it has room for its depth, or none. -/
def Accommodates (grammar : Grammar) (depth : Int → Nat) (top : Nat) (kept : Int → Prop) : Prop :=
  ∀ ⦃id left⦄, kept id → grammar.Attempts top id (left + 1) → depth id ≤ left + 1

/-- No pattern of the grammar looks behind. -/
def LooksForwards (grammar : Grammar) : Prop :=
  ∀ ⦃id pattern root node⦄, grammar.find? id = some pattern → pattern.content = .tree root →
    Node.Within node root → node.look ≠ .behind

theorem Accommodates.depth_le {grammar : Grammar} {depth : Int → Nat} {top : Nat}
    {kept : Int → Prop} (hroom : grammar.Accommodates depth top kept) (hpositive : 0 < top)
    {id : Int} (hid : kept id) (hknown : (grammar.find? id).isSome) : depth id ≤ top := by
  obtain ⟨left, rfl⟩ := Nat.exists_eq_succ_of_ne_zero (Nat.ne_of_gt hpositive)
  exact hroom hid (.top hknown)

end Grammar

/-! ## Patterns that are kept -/

namespace Evaluation

variable {grammar : Grammar} {text : Array Char} {token : Int → Int → Option Token}
  {rank depth : Int → Nat} {kept : Int → Prop}

theorem Evaluates.only (heval : Evaluates grammar text token rank depth)
    (hkept : grammar.Encloses kept) : Evaluates (grammar.only kept) text token rank depth where
  layered :=
    { id_eq := fun hfind => heval.layered.id_eq (Grammar.find?_only_eq_some_iff.mp hfind).2
      refers := by
        intro id pattern hfind other hother
        obtain ⟨hid, hfind⟩ := Grammar.find?_only_eq_some_iff.mp hfind
        rw [Grammar.find?_only_of_kept (hkept hid hfind other hother)]
        exact heval.layered.refers hfind other hother }
  depths hfind := heval.depths (Grammar.find?_only_eq_some_iff.mp hfind).2
  token_eq _ _ hfind := heval.token_eq (Grammar.find?_only_eq_some_iff.mp hfind).2
  fits := heval.fits
  retraceable _ _ _ _ hfind :=
    heval.retraceable (Grammar.find?_only_eq_some_iff.mp hfind).2

end Evaluation

namespace Chart

open Evaluation

variable {grammar : Grammar} {text : Array Char} {token : Int → Int → Option Token}
  {rank depth : Int → Nat} {kept : Int → Prop} {active : List Cell} {chart : Chart}

/-- The patterns that are kept are matched in the same way without the others. -/
theorem sameAt_only (heval : Evaluates grammar text token rank depth)
    (hkept : grammar.Encloses kept) {id : Int} (hid : kept id) :
    SameAt (grammar.only kept) grammar depth depth id := by
  induction hrank : rank id using Nat.strong_induction_on generalizing id with
  | _ value ih =>
      unfold SameAt
      rw [Grammar.find?_only_of_kept hid]
      cases hfind : grammar.find? id with
      | none => exact .none
      | some pattern =>
          refine .some ⟨rfl, fun room more hroom hmore => ?_⟩
          rw [heval.depths hfind] at hroom hmore
          refine matchPattern_eq_of_references (fun other hother => ?_) hroom hmore
          obtain ⟨-, hlower⟩ := heval.layered.refers hfind other hother
          exact ih (rank other) (hrank ▸ hlower) (hkept hid hfind other hother) rfl

/-- What a chart remembers of the patterns that are kept is right, and its indices are in order,
whatever it remembers of the others. -/
structure Reliable (grammar : Grammar) (text : Array Char) (token : Int → Int → Option Token)
    (kept : Int → Prop) (active : List Cell) (chart : Chart) : Prop where
  indexed : Indexed text active chart
  faithful : Faithful (grammar.only kept) text token active (fun _ _ => False) chart

/-- Both charts have the property. -/
def Both (property : Chart → Prop) (before after : Chart) : Prop :=
  property before ∧ property after

instance {property : Chart → Prop} : Growth (Both property) where
  trans hfirst hsecond := ⟨hfirst.1, hsecond.2⟩
  refl_right hboth := ⟨hboth.2, hboth.2⟩

/-- No trial of a pattern that is kept is under way. -/
def Apart (kept : Int → Prop) (active : List Cell) : Prop :=
  ∀ cell ∈ active, ¬ kept cell.2

theorem Reliable.markScanned (hchart : Reliable grammar text token kept active chart)
    {id position : Int} (htried : kept id → 0 ≤ position → position < text.size →
      (chart.outcome? position id).isSome) :
    Reliable grammar text token kept active (chart.markScanned id position) where
  indexed := hchart.indexed.markScanned id position
  faithful := hchart.faithful.markScanned fun hknown => htried (Grammar.kept_of_isSome hknown)

/-- With room for its depth a pattern that is kept is matched as it is evaluated; inside the text
the outcome is remembered. -/
theorem settlesFrom_kept (heval : Evaluates grammar text token rank depth)
    (hkept : grammar.Encloses kept) {pattern : Pattern}
    (hfind : grammar.find? pattern.id = some pattern) (hpattern : kept pattern.id) {room : Nat}
    (hroom : depth pattern.id ≤ room) (hapart : Apart kept active) (start : Int)
    (hchart : Reliable grammar text token kept active chart) :
    SettlesFrom (fun after => Reliable grammar text token kept active after ∧
        (0 ≤ start → start < text.size → (after.outcome? start pattern.id).isSome))
      chart (matchPattern grammar room pattern start) (token pattern.id start) := by
  have honly : (grammar.only kept).find? pattern.id = some pattern := by
    rwa [Grammar.find?_only_of_kept hpattern]
  have hsame : matchPattern (grammar.only kept) room pattern =
      matchPattern grammar room pattern := by
    have hat := sameAt_only heval hkept hpattern
    unfold SameAt at hat
    rw [honly, hfind] at hat
    cases hat with
    | some hboth => exact hboth.2 hroom hroom
  have habove : Above (grammar.only kept) rank active pattern.id := fun cell hcell hknown =>
    absurd (Grammar.kept_of_isSome hknown) (hapart cell hcell)
  rw [heval.depths hfind] at hroom
  obtain ⟨after, hrun, hfaithful, htried⟩ :=
    transparent (heval.only hkept) honly hroom habove (fun _ _ => False) start chart hchart.faithful
  rw [hsame] at hrun
  -- The indices stay in order in the same run.
  obtain ⟨result, other, hother, hextends, -⟩ := (yields_of_room text heval.layered.leads room).1
    active pattern hfind start chart hchart.indexed.extends_self
  rw [hrun] at hother
  cases hother
  exact ⟨after, hrun, ⟨hextends.indexed, hfaithful⟩, htried⟩

/-! ## Patterns that are not kept -/

section Others

variable (heval : Evaluates grammar text token rank depth) {pattern : Pattern}
  (hfind : grammar.find? pattern.id = some pattern) (hpattern : ¬ kept pattern.id) {room : Nat}
  {start : Int}
  (hnode : ∀ root, pattern.content = .tree root →
    Respects (Both (Reliable grammar text token kept ((start, pattern.id) :: active)))
      (matchNode grammar room root start))
include heval hfind hpattern hnode

/-- What is built for a pattern that is not kept may be remembered. -/
theorem exists_attempt_of_not_kept (hnonneg : 0 ≤ start) (hsize : start < text.size)
    (hfree : (start, pattern.id) ∉ active) (hnew : chart.outcome? start pattern.id = none)
    (hchart : Reliable grammar text token kept active chart) :
    ∃ outcome after, (attempt (matchNode grammar room) pattern start).run chart =
      (.ok outcome, after) ∧ Reliable grammar text token kept active after := by
  have hleads := heval.layered.leads
  have hentered : Reliable grammar text token kept ((start, pattern.id) :: active)
      { chart with active := (start, pattern.id) :: chart.active } := by
    refine ⟨hchart.indexed.enter hnew, ?_⟩
    rw [hchart.indexed.active_eq]
    exact hchart.faithful.withActive _
  have hbuild := yields_build hnonneg hsize fun root hroot =>
    (yields_of_room text hleads room).2.1 ((start, pattern.id) :: active) root
      (Grammar.Leads.resolves hleads hfind hroot) start (by omega)
  obtain ⟨outcome, middle, hrun, hmiddle, hbuilt⟩ :=
    (hbuild _ hentered.indexed.extends_self).exists_ok
  -- That the tree leaves the chart reliable is said of the same run.
  obtain ⟨result, other, hother, ⟨-, hreliable⟩, -⟩ :=
    yields_build_placed hnode _ ⟨hentered, hentered⟩
  rw [hrun] at hother
  cases hother
  have hleft : Faithful (grammar.only kept) text token active (fun _ _ => False)
      (middle.leave start pattern.id) := by
    rw [leave_eq hreliable.indexed.active_eq]
    exact hreliable.faithful.withActive active
  have hfits (found : Token) (hfound : outcome = some found) :
      Fits text pattern.id start found := by
    have hfits := (hbuilt found hfound).1
    rwa [hmiddle.indexed.text_eq] at hfits
  obtain ⟨after, hafter, hfaithful, -⟩ := hleft.remember hfits fun hknown =>
    absurd (Grammar.kept_of_isSome hknown) hpattern
  obtain ⟨last, hlast, hextends, -⟩ :=
    exists_attempt hchart.indexed hfind hfree hrun hmiddle hbuilt
  rw [← hchart.indexed.active_eq] at hfree
  have hattempt := run_attempt hfree hrun hafter
  rw [hattempt] at hlast
  cases hlast
  exact ⟨outcome, after, hattempt, hextends.indexed, hfaithful⟩

/-- A trial of a pattern that is not kept touches nothing of those that are. -/
theorem exists_run_of_not_kept (hchart : Reliable grammar text token kept active chart) :
    ∃ outcome after, (matchPattern grammar (room + 1) pattern start).run chart =
      (.ok outcome, after) ∧ Reliable grammar text token kept active after := by
  rw [matchPattern]
  cases hcovers : chart.covers start with
  | false => exact ⟨none, chart, (replays_recalled_outside hcovers pattern _).run_eq, hchart⟩
  | true =>
      cases houtcome : chart.outcome? start pattern.id with
      | some outcome =>
          exact ⟨outcome, chart, (replays_recalled hcovers houtcome _).run_eq, hchart⟩
      | none =>
          rw [run_recalled_of_new hcovers houtcome]
          by_cases hactive : (start, pattern.id) ∈ active
          · rw [← hchart.indexed.active_eq] at hactive
            exact ⟨none, chart, run_attempt_of_active hactive _, hchart⟩
          · have hinside : 0 ≤ start ∧ start < text.size := by
              simpa [covers, size, hchart.indexed.text_eq] using hcovers
            exact exists_attempt_of_not_kept heval hfind hpattern hnode hinside.1 hinside.2 hactive
              houtcome hchart

end Others

/-! ## Trials with the room that is left -/

theorem roomFor_pos {maxDepth : Int} (hlimit : 0 ≤ maxDepth) : 0 < roomFor maxDepth := by
  unfold roomFor
  omega

section Trials

variable (heval : Evaluates grammar text token rank depth) (hkept : grammar.Encloses kept)
  (hforwards : grammar.LooksForwards)
include heval hkept hforwards

/-- Wherever a pattern is tried, with the room that is left there, the chart stays reliable. Trials
of patterns and of nodes descend together, so this is one induction on the room. -/
theorem reliable_of_room {top : Nat} (hroom : grammar.Accommodates depth top kept) (room : Nat) :
    (∀ active, Apart kept active → ∀ pattern, grammar.find? pattern.id = some pattern →
      grammar.Attempts top pattern.id room → ∀ start,
        Respects (Both (Reliable grammar text token kept active))
          (matchPattern grammar room pattern start)) ∧
    (∀ active, Apart kept active → ∀ node,
      (∀ child, Node.Within child node → child.look ≠ .behind) →
      (∀ id left, node.Leaves room id left → grammar.Attempts top id left) → ∀ start,
        Respects (Both (Reliable grammar text token kept active))
          (matchNode grammar room node start)) := by
  induction room with
  | zero =>
      refine ⟨fun active _ pattern _ _ start => ?_, fun _ _ _ _ _ _ => composable_respects.pure _⟩
      -- Without room a pattern is only looked up.
      rw [matchPattern]
      exact respects_recalled (fun _ => composable_respects.pure none) pattern
  | succ room ih =>
      obtain ⟨ihPattern, ihNode⟩ := ih
      constructor
      · intro active hapart pattern hfind hattempts start chart hchart
        by_cases hpattern : kept pattern.id
        · obtain ⟨after, hrun, hafter, -⟩ := settlesFrom_kept heval hkept hfind hpattern
            (hroom hpattern hattempts) hapart start hchart.1
          exact ⟨_, after, hrun, ⟨hchart.1, hafter⟩, trivial⟩
        · have hbelow : Apart kept ((start, pattern.id) :: active) :=
            List.forall_mem_cons.mpr ⟨hpattern, hapart⟩
          obtain ⟨outcome, after, hrun, hafter⟩ := exists_run_of_not_kept heval hfind hpattern
            (fun root hroot => ihNode _ hbelow root (fun node => hforwards hfind hroot)
              (fun id left => hattempts.deeper hfind hroot) start) hchart.1
          exact ⟨_, after, hrun, ⟨hchart.1, hafter⟩, trivial⟩
      · intro active hapart node hlook hleaves start
        rw [matchNode, nodeStep, if_neg (hlook node (.root node))]
        refine .read fun chart => ?_
        refine composable_respects.bind ?_ fun _ => composable_respects.pure _
        refine composable_respects.repeatMatch (fun position => ?_) _ start
        cases node with
        | ref id quantity look =>
            refine respects_get_bind fun pattern hfind => ?_
            obtain rfl := heval.layered.id_eq hfind
            have htrial := ihPattern active hapart pattern hfind
              (hleaves _ room (.ref pattern.id quantity look room)) position
            refine composable_respects.bind htrial fun value => ?_
            cases value <;> exact composable_respects.pure _
        | group alternatives quantity look =>
            refine composable_respects.matchAlternatives
              (fun sequence hsequence child hchild position => ?_) position
            exact ihNode active hapart child
              (fun other hother => hlook other (.inside hsequence hchild hother))
              (fun id left hinside => hleaves id left
                (.inside hsequence hchild quantity look hinside)) position

/-- Trying all patterns at all positions leaves a reliable chart behind. -/
theorem reliable_fill {patterns : List Pattern}
    (hpatterns : ∀ pattern ∈ patterns, grammar.find? pattern.id = some pattern) {maxDepth : Int}
    (hlimit : 0 ≤ maxDepth) (hroom : grammar.Accommodates depth (roomFor maxDepth) kept) :
    Respects (Both (Reliable grammar text token kept [])) (fill grammar patterns maxDepth) := by
  refine .read fun _ => .forM fun position _ => .forM fun pattern hmem chart hchart => ?_
  have hfind := hpatterns pattern hmem
  have hknown : (grammar.find? pattern.id).isSome := by simp [hfind]
  have hapart : Apart kept [] := fun cell hcell => absurd hcell List.not_mem_nil
  by_cases hpattern : kept pattern.id
  · obtain ⟨after, hrun, hafter, htried⟩ := settlesFrom_kept heval hkept hfind hpattern
      (hroom.depth_le (roomFor_pos hlimit) hpattern hknown) hapart position hchart.1
    exact ⟨.ok ⟨⟩, _, (run_bind_of_ok hrun).trans rfl,
      ⟨hchart.1, hafter.markScanned fun _ => htried⟩, trivial⟩
  · have htrial := (reliable_of_room heval hkept hforwards hroom (roomFor maxDepth)).1 [] hapart
      pattern hfind (.top hknown) position
    refine (htrial chart hchart).bind fun _ after hafter _ => ?_
    exact ⟨.ok ⟨⟩, _, rfl, ⟨hafter.2, hafter.2.markScanned fun hid => absurd hid hpattern⟩, trivial⟩

end Trials

end Chart

namespace Registry

open Evaluation

/-- In a parse with this limit none of the patterns to which the one of this id leads, itself
included, is tried with too little room. -/
def HasRoomFor (registry : Registry) (maxDepth id : Int) : Prop :=
  registry.grammar.Accommodates registry.depth (Chart.roomFor maxDepth)
    (Relation.ReflTransGen registry.Refers id)

variable {registry : Registry}

theorem encloses_refers (id : Int) :
    registry.grammar.Encloses (Relation.ReflTransGen registry.Refers id) :=
  fun _ pattern hid hpattern _ hother => hid.tail ⟨pattern, hpattern, hother⟩

theorem looksBehindInSingleFile_of_looksForwards (hcoherent : registry.Coherent)
    (hforwards : registry.grammar.LooksForwards) : registry.LooksBehindInSingleFile :=
  fun _ hpattern _ hroot _ hwithin hlook =>
    absurd hlook (hforwards (hcoherent.mem_patterns_iff.mp hpattern) hroot hwithin)

/-- A parse whose limit leaves enough room for a pattern and all to which it leads remembers of them
what plain evaluation gives. -/
theorem reliable_of_parse (hcoherent : registry.Coherent) (hclosed : registry.Closed)
    (hacyclic : registry.Acyclic) (hforwards : registry.grammar.LooksForwards) {text : String}
    {maxDepth : Int} (hlimit : 0 ≤ maxDepth) {id : Int} (hroom : registry.HasRoomFor maxDepth id)
    {chart : Chart} (hparse : registry.parse text maxDepth = .ok chart) :
    Chart.Reliable registry.grammar text.toList.toArray (registry.token text)
      (Relation.ReflTransGen registry.Refers id) [] chart := by
  have heval := evaluates hcoherent hclosed hacyclic
    (looksBehindInSingleFile_of_looksForwards hcoherent hforwards) text
  have hfresh : Chart.Reliable registry.grammar text.toList.toArray (registry.token text)
      (Relation.ReflTransGen registry.Refers id) [] (Chart.ofText text) :=
    ⟨Chart.indexed_ofText text, Chart.faithful_ofText text⟩
  obtain ⟨result, after, hrun, ⟨-, hafter⟩, -⟩ := Chart.reliable_fill heval (encloses_refers id)
    hforwards (fun pattern => hcoherent.mem_patterns_iff.mp) hlimit hroom _ ⟨hfresh, hfresh⟩
  rw [parse, hrun] at hparse
  cases result with
  | ok value =>
      cases hparse
      exact hafter
  | error fault => cases hparse

/-- What a parse remembers of a pattern, in particular that it does not match, is what the pattern
gives on a fresh chart with that limit and with every greater one. -/
theorem matchText_of_remembered (hgrounded : registry.Grounded)
    (hforwards : registry.grammar.LooksForwards) (text : String) {maxDepth : Int}
    (hlimit : 0 ≤ maxDepth) {pattern : Pattern} (hpattern : pattern ∈ registry.patterns)
    (hroom : registry.HasRoomFor maxDepth pattern.id) :
    ∃ chart, registry.parse text maxDepth = .ok chart ∧
      ∀ position outcome, chart.outcome? position pattern.id = some outcome →
        ∀ greater, maxDepth ≤ greater →
          registry.matchText pattern text position greater = .ok outcome := by
  obtain ⟨hcoherent, hclosed, hacyclic⟩ := hgrounded
  have hfind : registry.byId? pattern.id = some pattern :=
    hcoherent.mem_patterns_iff.mp hpattern
  have hknown : (registry.byId? pattern.id).isSome := by simp [hfind]
  obtain ⟨chart, hparse, -⟩ := hclosed.exists_parse text maxDepth
  have hchart := reliable_of_parse hcoherent hclosed hacyclic hforwards hlimit hroom hparse
  refine ⟨chart, hparse, fun position outcome houtcome greater hgreater => ?_⟩
  have hvalue : outcome = registry.evaluate text pattern position := by
    rw [← token_eq_evaluate hcoherent hclosed hacyclic text hpattern]
    refine hchart.faithful.outcome_eq ?_ houtcome
    rwa [Grammar.find?_only_of_kept .refl]
  -- There is room for the depth of the pattern at its limit, and so at the greater one.
  have hdepth : pattern.depth registry.depth ≤ Chart.roomFor greater := by
    rw [← hasDepths hcoherent hclosed hacyclic hfind]
    exact (hroom.depth_le (Chart.roomFor_pos hlimit) .refl hknown).trans
      (roomFor_le_roomFor hgreater)
  have hretraces := (looksBehindInSingleFile_of_looksForwards hcoherent hforwards).retracesIn text
  rw [hvalue]
  exact matchText_eq_evaluate hcoherent hclosed hacyclic hretraces (fun _ => hfind)
    (hclosed pattern hpattern) (hretraces pattern hpattern)
    (unreached_matchText hcoherent hclosed hacyclic hdepth text position)

/-! ## A pattern in the depth of another one -/

/-- Two letters, a pattern for each of them, and between these a pattern that refers to the first
one. -/
def nested : Registry where
  ledger := #[
    { kind := .literal, content := .literal "a", id := 0 },
    { kind := .literal, content := .literal "b", id := 1 },
    { kind := .derived, content := .tree (.plainGroup [[.plainRef 1]]), id := 2 },
    { kind := .derived, content := .tree (.plainGroup [[.plainRef 0, .plainRef 2]]), id := 3 },
    { kind := .derived, content := .tree (.plainGroup [[.plainRef 0]]), id := 4 }]
  entries := [(0, 0), (1, 1), (2, 2), (3, 3), (4, 4)]
  nextId := 5

theorem nested_coherent : nested.Coherent where
  nodup_ids := by decide
  exists_pattern {id serial} hentry := by
    simp only [nested, List.mem_cons, Prod.mk.injEq, List.not_mem_nil, or_false] at hentry
    rcases hentry with ⟨rfl, rfl⟩ | ⟨rfl, rfl⟩ | ⟨rfl, rfl⟩ | ⟨rfl, rfl⟩ | ⟨rfl, rfl⟩ <;>
      exact ⟨_, rfl, rfl⟩

theorem references_nested : ∀ pattern ∈ nested.patterns, ∀ other ∈ pattern.content.references,
    other.toNat < pattern.id.toNat ∧ other ≠ 4 ∧ (pattern.id = 4 → other = 0) := by
  decide

theorem refers_nested {id other : Int} (hrefers : nested.Refers id other) :
    other.toNat < id.toNat ∧ other ≠ 4 ∧ (id = 4 → other = 0) := by
  obtain ⟨pattern, hpattern, hother⟩ := hrefers
  obtain rfl := nested_coherent.id_eq hpattern
  exact references_nested pattern (nested_coherent.mem_patterns_iff.mpr hpattern) other hother

theorem nested_grounded : nested.Grounded where
  coherent := nested_coherent
  closed := by
    unfold Closed
    decide
  acyclic := acyclic_of_decreasing Int.toNat fun _ _ hrefers => (refers_nested hrefers).1

/-- All nodes of the patterns stand once and look nowhere. -/
theorem plain_nested {pattern : Pattern} (hpattern : pattern ∈ nested.patterns) {root node : Node}
    (hroot : pattern.content = .tree root) (hwithin : Node.Within node root) :
    node.quantity = .once ∧ node.look = .here := by
  have hmem : pattern ∈ nested.ledger.toList := hpattern
  simp only [nested, List.mem_cons, List.not_mem_nil, or_false] at hmem
  rcases hmem with rfl | rfl | rfl | rfl | rfl <;> cases hroot <;>
    simp only [Node.plainGroup, Node.plainRef, Node.within_group_iff, Node.within_ref_iff,
      List.mem_cons, List.not_mem_nil, or_false, exists_eq_or_imp, exists_eq_left] at hwithin
  · rcases hwithin with rfl | rfl <;> exact ⟨rfl, rfl⟩
  · rcases hwithin with rfl | rfl | rfl <;> exact ⟨rfl, rfl⟩
  · rcases hwithin with rfl | rfl <;> exact ⟨rfl, rfl⟩

theorem nested_looksForwards : nested.grammar.LooksForwards := by
  intro id pattern root node hpattern hroot hwithin hlook
  obtain rfl := nested_coherent.id_eq hpattern
  have hhere := (plain_nested (nested_coherent.mem_patterns_iff.mpr hpattern) hroot hwithin).2
  rw [hlook] at hhere
  cases hhere

/-- Down to a depth of three the last pattern is tried from the top only, where it has room for its
depth, and so has the first letter everywhere. -/
theorem nested_hasRoomFor : nested.HasRoomFor 3 4 := by
  intro id left hpath hattempts
  have hid : id = 4 ∨ id = 0 := by
    clear hattempts
    induction hpath with
    | refl => exact .inl rfl
    | tail _ hrefers ih =>
        obtain ⟨hlower, -, hletter⟩ := refers_nested hrefers
        rcases ih with rfl | rfl
        · exact .inr (hletter rfl)
        · cases hlower
  rcases hid with rfl | rfl
  · cases hattempts with
    | top => decide
    | deeper _ hfind hroot hleaves =>
        have hrefers : nested.Refers _ 4 := ⟨_, hfind, by
          rw [hroot]
          exact hleaves.mem_references⟩
        exact absurd rfl (refers_nested hrefers).2.1
  · have hdepth : nested.depth 0 = 1 := by decide
    omega

/-- With a limit of three, which cuts the trials of the fourth pattern off, it is right of the last
one that it does not match the second letter. -/
theorem matchText_of_remembered_nested : ∃ chart pattern, nested.parse "ab" 3 = .ok chart ∧
    nested.byId? 4 = some pattern ∧ chart.outcome? 1 4 = some none ∧
      ∀ greater, 3 ≤ greater → nested.matchText pattern "ab" 1 greater = .ok none := by
  obtain ⟨pattern, hpattern⟩ : ∃ pattern, nested.byId? 4 = some pattern := ⟨_, rfl⟩
  have hid : pattern.id = 4 := nested_coherent.id_eq hpattern
  have hmem : pattern ∈ nested.patterns := by
    rw [nested_coherent.mem_patterns_iff, hid]
    exact hpattern
  obtain ⟨chart, hparse, hchart⟩ := matchText_of_remembered nested_grounded nested_looksForwards
    "ab" (by decide) hmem (hid ▸ nested_hasRoomFor)
  have hrun : (match nested.parse "ab" 3 with
      | .ok chart => (chart.outcome? 1 4).any Option.isNone
      | .error _ => false) = true := by
    decide +kernel
  rw [hparse] at hrun
  have houtcome : chart.outcome? 1 4 = some none := by simpa [Option.any_eq_true] using hrun
  rw [hid] at hchart
  exact ⟨chart, pattern, hparse, hpattern, houtcome, hchart 1 none houtcome⟩

/-- With the same limit it is remembered of the third pattern that it does not match the second
letter, since it was first tried there in the depth of the fourth one. On a fresh chart it matches,
with that limit and with every greater one. -/
theorem not_matchText_of_remembered_nested :
    nested.Grounded ∧ (∀ pattern ∈ nested.patterns, ∀ root node, pattern.content = .tree root →
      Node.Within node root → node.quantity = .once ∧ node.look = .here) ∧
    ∃ chart pattern, nested.parse "ab" 3 = .ok chart ∧ pattern ∈ nested.patterns ∧
      chart.outcome? 1 pattern.id = some none ∧
        ∀ greater, 3 ≤ greater → nested.matchText pattern "ab" 1 greater ≠ .ok none := by
  refine ⟨nested_grounded, fun pattern hpattern root node => plain_nested hpattern, ?_⟩
  obtain ⟨chart, hparse, -⟩ := nested_grounded.closed.exists_parse "ab" 3
  have hrun : (match nested.parse "ab" 3 with
      | .ok chart => nested.patterns.any fun pattern =>
        (chart.outcome? 1 pattern.id).any Option.isNone &&
          decide (pattern.depth nested.depth ≤ Chart.roomFor 3) &&
          (match nested.matchText pattern "ab" 1 3 with
            | .ok value => value.isSome
            | .error _ => false)
      | .error _ => false) = true := by
    decide +kernel
  rw [hparse] at hrun
  obtain ⟨pattern, hpattern, hrun⟩ := List.any_eq_true.mp hrun
  simp only [Bool.and_eq_true, decide_eq_true_eq] at hrun
  obtain ⟨⟨hforgotten, hdepth⟩, hmatch⟩ := hrun
  have houtcome : chart.outcome? 1 pattern.id = some none := by
    simpa [Option.any_eq_true] using hforgotten
  refine ⟨chart, pattern, hparse, hpattern, houtcome, fun greater hgreater hnone => ?_⟩
  have hsame : nested.matchText pattern "ab" 1 greater = nested.matchText pattern "ab" 1 3 :=
    unreached_matchText nested_coherent nested_grounded.closed nested_grounded.acyclic hdepth "ab" 1
      greater hgreater
  rw [← hsame, hnone] at hmatch
  cases hmatch

end Registry

end Motif
