import Motif.Proofs.Matching.Confining
import Motif.Proofs.Matching.Keeping
import Motif.Proofs.Matching.Replaying
import Motif.Proofs.Matching.Retracing

/-!
# Complete frontiers

The frontier of a pattern tells up to where it has been tried in order. Two parties move it: a parse
on its way from left to right, and a look behind, which is made while other trials are under way and
may run ahead of the parse. Both move it only over a position at which they have just tried the
pattern. So nothing before a frontier is left out, and in the slot of a last position that has been
scanned a token is missing only if there is none. The charts for which this holds are those that are
reached by such steps; a parse goes through them, and so does whatever a trial matches on its way.
-/

namespace Motif

namespace Chart

/-- Tries a pattern at the positions up to a last one at which it has not been tried in order. -/
def scanUpTo (attempt : Int → Action (Option Token)) (id last : Int) : Action Unit := do
  let start := (← getThe Chart).scannedUntil id
  scan attempt id (last + 1 - start).toNat start

/-- A look behind at a reference scans up to the last position before it reads the slot there. -/
theorem behindStep_ref (grammar : Grammar) (trial : Pattern → Int → Action (Option Token))
    (back : Node → Int → Action (Option Int)) (id : Int) (quantity : Quantity) (look : Look)
    (last : Int) :
    behindStep grammar trial back (.ref id quantity look) last =
      if last < 0 then pure none
      else do
        let found ← grammar.get id
        scanUpTo (trial found) found.id last
        return ((← getThe Chart).tail? last found.id).map Token.start := by
  simp only [behindStep, scanUpTo, bind_assoc]

end Chart

namespace Registry

open Chart

/-- Who may try a pattern: anyone if no trials are under way, and otherwise the pattern of the
innermost one, which refers to it. -/
def Called (registry : Registry) : List Cell → Int → Prop
  | [], _ => True
  | innermost :: _, id => registry.Refers innermost.2 id

/-- The charts of a text that come about by matching registered patterns at limits that are not
reached, and the trials that are under way, the innermost first. After a trial the frontier of its
pattern may move over its position. While a trial is under way, the patterns to which its own one
refers are tried. -/
inductive Reached (registry : Registry) (text : String) : List Cell → Chart → Prop where
  | fresh : Reached registry text [] (ofText text)
  | matched {active : List Cell} {chart : Chart} {pattern : Pattern}
    (hchart : Reached registry text active chart) (hpattern : pattern ∈ registry.patterns)
    (hcalled : registry.Called active pattern.id) {start maxDepth : Int}
    (hunreached : Unreached (fun limit =>
      (tryPattern registry.grammar pattern start limit).run chart) maxDepth) :
    Reached registry text active ((tryPattern registry.grammar pattern start maxDepth).run chart).2
  | marked {active : List Cell} {chart : Chart} {pattern : Pattern}
    (hchart : Reached registry text active chart) (hpattern : pattern ∈ registry.patterns)
    (hcalled : registry.Called active pattern.id) {start maxDepth : Int}
    (hunreached : Unreached (fun limit =>
      (tryPattern registry.grammar pattern start limit).run chart) maxDepth)
    (hstart : start < text.length) :
    Reached registry text active
      (((tryPattern registry.grammar pattern start maxDepth).run chart).2.markScanned pattern.id
        start)
  | entered {active : List Cell} {chart : Chart} {pattern : Pattern}
    (hchart : Reached registry text active chart) (hpattern : pattern ∈ registry.patterns)
    (hcalled : registry.Called active pattern.id) {start : Int}
    (hinside : 0 ≤ start ∧ start < text.length)
    (hnew : chart.outcome? start pattern.id = none) :
    Reached registry text ((start, pattern.id) :: active) ((enter start pattern.id).run chart).2

/-- What all these charts have: they account for themselves, their frontiers are those of registered
patterns and lie inside the text, and of the trials under way the inner ones are of lower rank. -/
structure Upheld (registry : Registry) (text : Array Char) (active : List Cell)
    (chart : Chart) : Prop where
  accounts : Accounts registry.grammar registry.depth text active chart chart
  confines : Confines registry.grammar text active chart chart
  descends : active.Pairwise fun inner outer => registry.rank inner.2 < registry.rank outer.2

variable {registry : Registry} {active : List Cell} {chart : Chart} {pattern : Pattern}

theorem upheld_ofText (registry : Registry) (text : String) :
    registry.Upheld text.toList.toArray [] (ofText text) :=
  ⟨(indexed_ofText text).accounts_self (swept_ofText _ text), confines_ofText text, .nil⟩

/-- Before a frontier every outcome inside the text is remembered; the frontier of an id that is not
registered has not moved. -/
theorem Upheld.isSome_outcome? {text : Array Char} (hchart : registry.Upheld text active chart)
    {id position : Int} (hnonneg : 0 ≤ position) (hscanned : position < chart.scannedUntil id)
    (hsize : position < text.size) : (chart.outcome? position id).isSome := by
  have hfound := hchart.confines.found (show chart.scannedUntil id ≠ 0 by omega)
  rw [← hchart.accounts.grown.indexed.text_eq] at hsize
  exact hchart.accounts.swept hfound position hnonneg hscanned hsize

/-- The slot of a last position holds a token of a pattern if one that is remembered ends there. -/
theorem Upheld.isSome_tail?_iff {text : Array Char} (hchart : registry.Upheld text active chart)
    (last id : Int) :
    (chart.tail? last id).isSome ↔ ∃ start token,
      chart.outcome? start id = some (some token) ∧ 0 < token.length ∧ token.last = last := by
  have hindexed := hchart.accounts.grown.indexed
  constructor
  · intro htail
    obtain ⟨token, htoken⟩ := Option.isSome_iff_exists.mp htail
    obtain ⟨houtcome, hlast, hlength⟩ := hindexed.outcome_of_tail htoken
    exact ⟨token.start, token, houtcome, hlength, hlast⟩
  · rintro ⟨start, token, houtcome, hlength, rfl⟩
    exact hindexed.tail_of_outcome houtcome hlength

section Steps

variable (hcoherent : registry.Coherent) (hclosed : registry.Closed) (hacyclic : registry.Acyclic)
include hcoherent hclosed hacyclic

/-- Whoever tries a pattern is of higher rank, and so is every trial that is under way. -/
theorem rank_lt_of_called {id : Int}
    (hdescends : active.Pairwise fun inner outer => registry.rank inner.2 < registry.rank outer.2)
    (hcalled : registry.Called active id) :
    ∀ cell ∈ active, registry.rank id < registry.rank cell.2 := by
  cases active with
  | nil => simp
  | cons innermost others =>
      obtain ⟨caller, hcaller, hid⟩ := hcalled
      have hlower := ((layered hcoherent hclosed hacyclic).refers hcaller id hid).2
      obtain ⟨houter, -⟩ := List.pairwise_cons.mp hdescends
      intro cell hcell
      rcases List.mem_cons.mp hcell with rfl | hcell
      · exact hlower
      · exact hlower.trans (houter cell hcell)

/-- Beyond the depth of a pattern the limit makes no difference to trying it. -/
theorem tryPattern_eq_of_room {maxDepth greater : Int}
    (hroom : pattern.depth registry.depth ≤ roomFor maxDepth) (hgreater : maxDepth ≤ greater) :
    (fun start => tryPattern registry.grammar pattern start greater) =
      fun start => tryPattern registry.grammar pattern start maxDepth :=
  roomIrrelevant_of_layered (layered hcoherent hclosed hacyclic)
    (hasDepths hcoherent hclosed hacyclic) pattern
    (hroom.trans (roomFor_le_roomFor hgreater)) hroom

theorem unreached_tryPattern {maxDepth : Int}
    (hroom : pattern.depth registry.depth ≤ roomFor maxDepth) (start : Int) (chart : Chart) :
    Unreached (fun limit => (tryPattern registry.grammar pattern start limit).run chart)
      maxDepth := by
  intro greater hgreater
  have hsame := tryPattern_eq_of_room hcoherent hclosed hacyclic hroom hgreater
  exact congrArg (fun attempt => (attempt start).run chart) hsame

theorem unreached_scanUpTo {maxDepth : Int}
    (hroom : pattern.depth registry.depth ≤ roomFor maxDepth) (id last : Int) (chart : Chart) :
    Unreached (fun limit => (scanUpTo (fun start =>
      tryPattern registry.grammar pattern start limit) id last).run chart) maxDepth := by
  intro greater hgreater
  have hsame := tryPattern_eq_of_room hcoherent hclosed hacyclic hroom hgreater
  exact congrArg (fun attempt => (scanUpTo attempt id last).run chart) hsame

/-- A trial at a limit that is not reached upholds everything and leaves an outcome. -/
theorem Upheld.exists_tryPattern {text : Array Char} (hchart : registry.Upheld text active chart)
    (hpattern : pattern ∈ registry.patterns) (hcalled : registry.Called active pattern.id)
    {start maxDepth : Int} (hunreached : Unreached (fun limit =>
      (tryPattern registry.grammar pattern start limit).run chart) maxDepth) :
    ∃ value after, (tryPattern registry.grammar pattern start maxDepth).run chart =
        (.ok value, after) ∧ registry.Upheld text active after ∧ Tried pattern start after ∧
          Suits pattern start value after ∧ Grows chart after := by
  have hlayered := layered hcoherent hclosed hacyclic
  have howned : Owned registry.grammar pattern := hcoherent.mem_patterns_iff.mp hpattern
  have hlower := rank_lt_of_called hcoherent hclosed hacyclic hchart.descends hcalled
  -- The run is that at a greater limit, which leaves room for the depth of the pattern.
  obtain ⟨greater, hgreater, hroom⟩ := exists_limit registry.patterns registry.depth maxDepth
  obtain ⟨value, after, hrun, hafter, -, htried⟩ :=
    ((steadyWith hlayered (hasDepths hcoherent hclosed hacyclic) (roomFor greater)).pattern active
      pattern howned (hroom pattern hpattern) (fun cell hcell _ => hlower cell hcell) start chart
      hchart.accounts).exists_ok
  obtain ⟨_, last, hagain, hlast, hsuits⟩ := ((confined_of_room hlayered.leads text
    (roomFor greater)).1 active pattern howned start chart hchart.confines).exists_ok
  rw [hrun] at hagain
  cases hagain
  have hsame : (matchPattern registry.grammar (roomFor greater) pattern start).run chart =
      (tryPattern registry.grammar pattern start maxDepth).run chart := hunreached greater hgreater
  exact ⟨value, after, hsame ▸ hrun, ⟨Growth.refl_right hafter, Growth.refl_right hlast,
    hchart.descends⟩, htried, hsuits, hafter.grows⟩

omit hclosed hacyclic in
theorem Upheld.markScanned {text : Array Char} (hchart : registry.Upheld text active chart)
    (hpattern : pattern ∈ registry.patterns) {start : Int} (htried : Tried pattern start chart)
    (hstart : start < text.size) :
    registry.Upheld text active (chart.markScanned pattern.id start) := by
  have howned : Owned registry.grammar pattern := hcoherent.mem_patterns_iff.mp hpattern
  have hfound : (registry.grammar.find? pattern.id).isSome := by simp [howned]
  exact ⟨Growth.refl_right (hchart.accounts.markScanned htried),
    Growth.refl_right (hchart.confines.markScanned hfound hstart), hchart.descends⟩

/-- A trial that begins is not under way already, since its pattern would be of lower rank than
itself. -/
theorem Upheld.enter {text : Array Char} (hchart : registry.Upheld text active chart)
    (hcalled : registry.Called active pattern.id) {start : Int}
    (hnew : chart.outcome? start pattern.id = none) :
    registry.Upheld text ((start, pattern.id) :: active)
      ((Chart.enter start pattern.id).run chart).2 := by
  have hlower := rank_lt_of_called hcoherent hclosed hacyclic hchart.descends hcalled
  have hindexed := hchart.accounts.grown.indexed
  have hfree : (start, pattern.id) ∉ chart.active := by
    rw [hindexed.active_eq]
    exact fun hmem => Nat.lt_irrefl _ (hlower _ hmem)
  have hentered := hindexed.enter hnew
  rw [run_enter hfree]
  exact ⟨hentered.accounts_self hchart.accounts.swept,
    hchart.confines.of_scanned hentered.extends_self rfl,
    List.pairwise_cons.mpr ⟨hlower, hchart.descends⟩⟩

theorem Reached.upheld {text : String} (hchart : registry.Reached text active chart) :
    registry.Upheld text.toList.toArray active chart := by
  induction hchart with
  | fresh => exact upheld_ofText registry text
  | matched _ hpattern hcalled hunreached ih =>
      obtain ⟨value, after, hrun, hafter, -⟩ :=
        ih.exists_tryPattern hcoherent hclosed hacyclic hpattern hcalled hunreached
      rwa [hrun]
  | marked _ hpattern hcalled hunreached hstart ih =>
      obtain ⟨value, after, hrun, hafter, htried, -⟩ :=
        ih.exists_tryPattern hcoherent hclosed hacyclic hpattern hcalled hunreached
      rw [hrun]
      refine hafter.markScanned hcoherent hpattern htried ?_
      rwa [List.size_toArray, String.length_toList]
  | entered _ _ hcalled _ hnew ih => exact ih.enter hcoherent hclosed hacyclic hcalled hnew

/-- A trial with room and the move of the frontier over its position reach a chart. -/
theorem Reached.exists_marked {text : String} (hchart : registry.Reached text active chart)
    (hpattern : pattern ∈ registry.patterns) (hcalled : registry.Called active pattern.id)
    {limit : Int} (hroom : pattern.depth registry.depth ≤ roomFor limit) {start : Int}
    (hstart : start < text.length) :
    ∃ value after, (tryPattern registry.grammar pattern start limit).run chart =
        (.ok value, after) ∧ Grows chart after ∧
          registry.Reached text active (after.markScanned pattern.id start) := by
  have hunreached := unreached_tryPattern hcoherent hclosed hacyclic hroom start chart
  obtain ⟨value, after, hrun, -, -, -, hgrows⟩ := (hchart.upheld hcoherent hclosed
    hacyclic).exists_tryPattern hcoherent hclosed hacyclic hpattern hcalled hunreached
  have hmarked := hchart.marked hpattern hcalled hunreached hstart
  rw [hrun] at hmarked
  exact ⟨value, after, hrun, hgrows, hmarked⟩

/-! ## Scanning -/

/-- Trying a pattern in order from its frontier, or from before it, moves the frontier on. -/
theorem Reached.exists_scan {text : String} (hpattern : pattern ∈ registry.patterns)
    (hcalled : registry.Called active pattern.id) {limit : Int}
    (hroom : pattern.depth registry.depth ≤ roomFor limit) (count : Nat) {position : Int}
    (hcount : position + count ≤ text.length) (hchart : registry.Reached text active chart)
    (hfrontier : position ≤ chart.scannedUntil pattern.id) :
    ∃ after, (scan (fun start => tryPattern registry.grammar pattern start limit) pattern.id count
        position).run chart = (.ok ⟨⟩, after) ∧ registry.Reached text active after ∧
          position + count ≤ after.scannedUntil pattern.id := by
  induction count generalizing position chart with
  | zero => exact ⟨chart, rfl, hchart, by simpa using hfrontier⟩
  | succ count ih =>
      push_cast at hcount ⊢
      obtain ⟨value, middle, hrun, hgrows, hmarked⟩ := hchart.exists_marked hcoherent hclosed
        hacyclic hpattern hcalled hroom (show position < text.length by omega)
      have hmoved := lt_scannedUntil_markScanned
        (hfrontier.trans (hgrows.scannedUntil_le pattern.id))
      obtain ⟨after, hrest, hafter, hscanned⟩ := ih (by omega) hmarked hmoved
      refine ⟨after, ?_, hafter, by omega⟩
      rw [scan]
      exact (run_bind_of_ok hrun).trans ((run_modify_bind middle).trans hrest)

theorem Reached.exists_scanUpTo {text : String} (hchart : registry.Reached text active chart)
    (hpattern : pattern ∈ registry.patterns) (hcalled : registry.Called active pattern.id)
    {last : Int} (hlast : last < text.length) {maxDepth : Int}
    (hunreached : Unreached (fun limit => (scanUpTo (fun start =>
      tryPattern registry.grammar pattern start limit) pattern.id last).run chart) maxDepth) :
    ∃ after, (scanUpTo (fun start => tryPattern registry.grammar pattern start maxDepth) pattern.id
        last).run chart = (.ok ⟨⟩, after) ∧ registry.Reached text active after ∧
          last < after.scannedUntil pattern.id := by
  obtain ⟨greater, hgreater, hroom⟩ := exists_limit registry.patterns registry.depth maxDepth
  have hsize := (hchart.upheld hcoherent hclosed hacyclic).confines.scannedUntil_le pattern.id
  rw [List.size_toArray, String.length_toList] at hsize
  obtain ⟨after, hrun, hafter, hscanned⟩ := exists_scan hcoherent hclosed hacyclic hpattern hcalled
    (hroom pattern hpattern) (last + 1 - chart.scannedUntil pattern.id).toNat (by omega) hchart
    (le_refl _)
  have hsame := hunreached greater hgreater
  refine ⟨after, hsame.symm.trans ((run_read_bind chart).trans hrun), hafter, by omega⟩

end Steps

/-! ## What is matched while trials are under way -/

/-- From every chart that is reached the operation ends without a fault, on a chart that is reached
again and with a value of a property. -/
abbrev Passes {α : Type} (registry : Registry) (text : String) (active : List Cell)
    (action : Chart.Action α) (property : α → Chart → Prop) : Prop :=
  Yields (Leaves (registry.Reached text active)) action property fun _ => False

/-- The patterns to which the node refers are registered and may be tried. -/
def MayMatch (registry : Registry) (active : List Cell) (node : Node) : Prop :=
  ∀ id ∈ node.references, registry.Called active id ∧ (registry.byId? id).isSome

theorem MayMatch.child {alternatives : List (List Node)} {quantity : Quantity} {look : Look}
    (hgroup : registry.MayMatch active (.group alternatives quantity look))
    {sequence : List Node} (hsequence : sequence ∈ alternatives) {child : Node}
    (hchild : child ∈ sequence) : registry.MayMatch active child := fun id hid =>
  hgroup id (Node.mem_references_group.mpr ⟨sequence, hsequence, child, hchild, hid⟩)

theorem roomFor_sub_one (room : Nat) : roomFor (room - 1) = room := by
  unfold roomFor
  omega

theorem matchPattern_eq_tryPattern (grammar : Grammar) (room : Nat) (pattern : Pattern) :
    matchPattern grammar room pattern =
      fun start => tryPattern grammar pattern start (room - 1) := by
  funext start
  rw [tryPattern, roomFor_sub_one]

section Trials

variable (hcoherent : registry.Coherent) (hclosed : registry.Closed) (hacyclic : registry.Acyclic)
include hcoherent hclosed hacyclic

theorem passes_matchPattern {text : String} (hpattern : pattern ∈ registry.patterns)
    (hcalled : registry.Called active pattern.id) {room : Nat}
    (hroom : pattern.depth registry.depth ≤ room) (start : Int) :
    registry.Passes text active (matchPattern registry.grammar room pattern start)
      (Suits pattern start) := by
  intro chart hchart
  rw [← roomFor_sub_one room] at hroom
  have hunreached := unreached_tryPattern hcoherent hclosed hacyclic hroom start chart
  have hreached := Reached.matched hchart hpattern hcalled hunreached
  obtain ⟨value, after, hrun, -, -, hsuits, -⟩ := (Reached.upheld hcoherent hclosed hacyclic
    hchart).exists_tryPattern hcoherent hclosed hacyclic hpattern hcalled hunreached
  rw [hrun] at hreached
  rw [matchPattern_eq_tryPattern]
  exact ⟨.ok value, after, hrun, hreached, hsuits⟩

/-- A reference leads to a registered pattern that may be tried and for which there is room. -/
theorem MayMatch.exists_pattern {id : Int} {quantity : Quantity} {look : Look} {room : Nat}
    (hnode : registry.MayMatch active (.ref id quantity look))
    (hroom : (Node.ref id quantity look).depth registry.depth ≤ room + 1) :
    ∃ pattern ∈ registry.patterns, registry.grammar.find? id = some pattern ∧
      registry.Called active pattern.id ∧ pattern.depth registry.depth ≤ room := by
  obtain ⟨hcalled, hknown⟩ := hnode id (by simp)
  obtain ⟨pattern, hfind⟩ := Option.isSome_iff_exists.mp hknown
  obtain rfl := hcoherent.id_eq hfind
  have hbelow : registry.depth pattern.id ≤ room := Nat.le_of_succ_le_succ hroom
  rw [hasDepths hcoherent hclosed hacyclic hfind] at hbelow
  exact ⟨pattern, hcoherent.mem_patterns_iff.mpr hfind, hfind, hcalled, hbelow⟩

section Nodes

variable {text : String} {room : Nat} {node : Node} (hnode : registry.MayMatch active node)
  (hroom : node.depth registry.depth ≤ room + 1)
include hnode hroom

/-- A look behind scans on charts that are reached. -/
theorem passes_behindStep {back : Node → Int → Chart.Action (Option Int)}
    (hback : ∀ child, registry.MayMatch active child → child.depth registry.depth ≤ room →
      ∀ last : Int, last + 1 ≤ text.length → registry.Passes text active (back child last)
        (StartsAt (· ≤ (text.length : Int))))
    {last : Int} (hlast : last + 1 ≤ text.length) :
    registry.Passes text active
      (behindStep registry.grammar (matchPattern registry.grammar room) back node last)
      (StartsAt (· ≤ (text.length : Int))) := by
  intro chart hchart
  cases node with
  | group alternatives quantity look =>
      unfold behindStep
      split
      next => exact .pure hchart (by simp [StartsAt])
      next =>
        exact yields_behindAlternatives_inside (fun sequence hsequence child hchild =>
          hback child (hnode.child hsequence hchild)
            (SteadyWith.depth_child_le hroom hsequence hchild)) hlast chart hchart
  | ref id quantity look =>
      obtain ⟨pattern, hpattern, hfind, hcalled, hbelow⟩ :=
        hnode.exists_pattern hcoherent hclosed hacyclic hroom
      rw [← roomFor_sub_one room] at hbelow
      rw [behindStep_ref]
      split
      next => exact .pure hchart (by simp [StartsAt])
      next =>
        simp only [Grammar.get, hfind, lift_ok_bind, matchPattern_eq_tryPattern]
        obtain ⟨after, hrun, hafter, -⟩ := Reached.exists_scanUpTo hcoherent hclosed hacyclic
          hchart hpattern hcalled (show last < text.length by omega)
          (unreached_scanUpTo hcoherent hclosed hacyclic hbelow pattern.id last chart)
        have hscan : YieldsFrom (Leaves (registry.Reached text active)) chart
            (scanUpTo (fun start => tryPattern registry.grammar pattern start (room - 1)) pattern.id
              last) (fun _ _ => True) fun _ => False :=
          ⟨.ok ⟨⟩, after, hrun, hafter, trivial⟩
        refine hscan.bind fun _ after hafter _ => .read (.pure hafter ?_)
        intro start hstart
        obtain ⟨token, htail, rfl⟩ := Option.map_eq_some_iff.mp hstart
        obtain ⟨-, hends, hlength⟩ := (Reached.upheld hcoherent hclosed hacyclic
          hafter).accounts.grown.indexed.outcome_of_tail htail
        unfold Token.last at hends
        omega

theorem passes_onceStep {forth : Node → Int → Chart.Action (Option Reach)}
    (hforth : ∀ child, registry.MayMatch active child → child.depth registry.depth ≤ room →
      ∀ start : Int, start ≤ text.length → registry.Passes text active (forth child start)
        (StopsAt (· ≤ (text.length : Int))))
    {position : Int} (hposition : position ≤ text.length) :
    registry.Passes text active
      (onceStep registry.grammar (matchPattern registry.grammar room) forth node position)
      (StopsAt (· ≤ (text.length : Int))) := by
  intro chart hchart
  unfold onceStep
  cases node with
  | group alternatives quantity look =>
      exact yields_matchAlternatives_inside (fun sequence hsequence child hchild =>
        hforth child (hnode.child hsequence hchild)
          (SteadyWith.depth_child_le hroom hsequence hchild)) hposition chart hchart
  | ref id quantity look =>
      obtain ⟨pattern, hpattern, hfind, hcalled, hbelow⟩ :=
        hnode.exists_pattern hcoherent hclosed hacyclic hroom
      simp only [Grammar.get, hfind, lift_ok_bind]
      refine (passes_matchPattern hcoherent hclosed hacyclic hpattern hcalled hbelow position chart
        hchart).bind fun value after hafter hvalue => ?_
      cases value with
      | none => exact .pure hafter (by simp [StopsAt])
      | some token =>
          refine .pure hafter ?_
          rintro reach ⟨⟩
          have hstop := (hvalue token rfl).1.stop_le
          rwa [(Reached.upheld hcoherent hclosed hacyclic hafter).accounts.grown.indexed.text_eq,
            List.size_toArray, String.length_toList] at hstop

end Nodes

/-- With room for its depth, whatever a node matches while trials are under way goes through charts
that are reached, look behinds with what they scan included. -/
theorem passes_of_room (text : String) (active : List Cell) (room : Nat) :
    (∀ node, registry.MayMatch active node → node.depth registry.depth ≤ room →
      ∀ start : Int, start ≤ text.length → registry.Passes text active
        (matchNode registry.grammar room node start) (StopsAt (· ≤ (text.length : Int)))) ∧
    (∀ node, registry.MayMatch active node → node.depth registry.depth ≤ room →
      ∀ last : Int, last + 1 ≤ text.length → registry.Passes text active
        (matchBehind registry.grammar room node last) (StartsAt (· ≤ (text.length : Int)))) := by
  induction room with
  | zero =>
      constructor
      · intro node _ hroom
        cases node <;> exact absurd hroom (Nat.not_succ_le_zero _)
      · intro node _ hroom
        cases node <;> exact absurd hroom (Nat.not_succ_le_zero _)
  | succ room ih =>
      obtain ⟨ihNode, ihBehind⟩ := ih
      have hbehind (node : Node) (hnode : registry.MayMatch active node)
          (hroom : node.depth registry.depth ≤ room + 1) (last : Int)
          (hlast : last + 1 ≤ text.length) :=
        passes_behindStep hcoherent hclosed hacyclic hnode hroom ihBehind hlast
      constructor
      · intro node hnode hroom start hstart
        rw [matchNode]
        refine yields_nodeStep_inside (fun last hlast chart hchart => ?_) (fun position hposition =>
          passes_onceStep hcoherent hclosed hacyclic hnode hroom ihNode hposition) hstart
        exact (hbehind node hnode hroom last hlast chart hchart).mono fun _ _ _ _ => trivial
      · intro node hnode hroom last hlast
        rw [matchBehind]
        exact hbehind node hnode hroom last hlast

/-- From the beginning of a trial to the token that is built, all charts are reached. -/
theorem Reached.exists_build {text : String} (hchart : registry.Reached text active chart)
    (hpattern : pattern ∈ registry.patterns) (hcalled : registry.Called active pattern.id)
    {start : Int} (hinside : 0 ≤ start ∧ start < text.length)
    (hnew : chart.outcome? start pattern.id = none) {room : Nat}
    (hroom : pattern.depth registry.depth ≤ room + 1) :
    ∃ outcome after, (build (matchNode registry.grammar room) pattern start).run
        ((Chart.enter start pattern.id).run chart).2 = (.ok outcome, after) ∧
      registry.Reached text ((start, pattern.id) :: active) after := by
  have howned : registry.byId? pattern.id = some pattern := hcoherent.mem_patterns_iff.mp hpattern
  have hroot : ∀ root, pattern.content = .tree root →
      registry.MayMatch ((start, pattern.id) :: active) root := by
    intro root hcontent id hid
    have hreference : id ∈ pattern.content.references := by rwa [hcontent]
    exact ⟨⟨pattern, howned, hreference⟩, hclosed pattern hpattern id hreference⟩
  have hbuild : registry.Passes text ((start, pattern.id) :: active)
      (build (matchNode registry.grammar room) pattern start) fun _ _ => True := by
    refine yields_build_tree fun root hcontent chart hchart => ?_
    rw [Pattern.depth, hcontent] at hroom
    exact ((passes_of_room hcoherent hclosed hacyclic text _ room).1 root (hroot root hcontent)
      (Nat.le_of_succ_le_succ hroom) start hinside.2.le chart hchart).mono fun _ _ _ _ => trivial
  have hentered := hchart.entered hpattern hcalled hinside hnew
  obtain ⟨outcome, after, hrun, hafter, -⟩ := (hbuild _ hentered).exists_ok
  exact ⟨outcome, after, hrun, hafter⟩

end Trials

/-! ## Parsing -/

section Parsing

variable (hcoherent : registry.Coherent) (hclosed : registry.Closed) (hacyclic : registry.Acyclic)
include hcoherent hclosed hacyclic

theorem Reached.endsFrom_tryAll {text : String} (hchart : registry.Reached text [] chart)
    {limit : Int}
    (hroom : ∀ pattern ∈ registry.patterns, pattern.depth registry.depth ≤ roomFor limit)
    {position : Int} (hposition : position < text.length) :
    EndsFrom (fun _ => False) chart
      (tryAll registry.grammar (roomFor limit) position registry.patterns)
      fun _ after => registry.Reached text [] after := by
  refine .forM (fun pattern hpattern chart hchart => ?_) hchart
  obtain ⟨value, after, hrun, -, hmarked⟩ := hchart.exists_marked hcoherent hclosed hacyclic
    hpattern trivial (hroom pattern hpattern) hposition
  exact .after_ok hrun (.of_run rfl hmarked)

/-- A parse goes through charts that are reached, and it moves every frontier to the end of the
text. -/
theorem exists_reached_parse (text : String) {maxDepth : Int}
    (hunreached : Unreached (fun limit => registry.parse text limit) maxDepth) :
    ∃ chart, registry.parse text maxDepth = .ok chart ∧ registry.Reached text [] chart ∧
      ∀ pattern ∈ registry.patterns, chart.scannedUntil pattern.id = text.length := by
  obtain ⟨greater, hgreater, hroom⟩ := exists_limit registry.patterns registry.depth maxDepth
  have hfill : EndsFrom (fun _ => False) (ofText text)
      (fill registry.grammar registry.patterns greater)
      fun _ after => registry.Reached text [] after := by
    refine .read (.forM (fun position hposition chart hchart => ?_) .fresh)
    refine hchart.endsFrom_tryAll hcoherent hclosed hacyclic hroom ?_
    have hinside : position < text.toList.toArray.size := List.mem_range.mp hposition
    rw [List.size_toArray, String.length_toList] at hinside
    omega
  obtain ⟨⟨⟩, chart, hrun, hchart⟩ := hfill.exists_ok id
  have hparse : registry.parse text maxDepth = .ok chart := by
    have hsame : registry.parse text greater = registry.parse text maxDepth :=
      hunreached greater hgreater
    rw [← hsame, parse, hrun]
  refine ⟨chart, hparse, hchart, fun pattern hpattern => ?_⟩
  obtain ⟨same, hagain, hsearched⟩ := hclosed.exists_searched text maxDepth
  rw [hparse] at hagain
  cases hagain
  have hle := (hchart.upheld hcoherent hclosed hacyclic).confines.scannedUntil_le pattern.id
  have hge := hsearched.size_le_scannedUntil pattern hpattern
  rw [List.size_toArray, String.length_toList] at hle hge
  omega

end Parsing

/-- No frontier leaves anything out. On every chart that is reached by matching registered patterns
and by moving frontiers as parses and look behinds do, also while trials are under way, the outcomes
before every frontier are remembered. So after a look behind has scanned up to a position inside the
text, the slot of that last position holds a token of the pattern exactly if a token of it that is
remembered has its last character there. After a parse everything is remembered, and every frontier
stands at the end of the text. -/
theorem frontier_complete (hcoherent : registry.Coherent) (hclosed : registry.Closed)
    (hacyclic : registry.Acyclic) (text : String) :
    (∀ active chart, registry.Reached text active chart →
      (∀ id position : Int, 0 ≤ position → position < chart.scannedUntil id →
        position < text.length → (chart.outcome? position id).isSome) ∧
      ∀ pattern ∈ registry.patterns, registry.Called active pattern.id →
        ∀ last : Int, 0 ≤ last → last < text.length → ∀ maxDepth,
          Unreached (fun limit => (scanUpTo (fun start =>
            tryPattern registry.grammar pattern start limit) pattern.id last).run chart) maxDepth →
          ∃ after, (scanUpTo (fun start => tryPattern registry.grammar pattern start maxDepth)
              pattern.id last).run chart = (.ok ⟨⟩, after) ∧
            registry.Reached text active after ∧ last < after.scannedUntil pattern.id ∧
              ((after.tail? last pattern.id).isSome ↔ ∃ start token,
                after.outcome? start pattern.id = some (some token) ∧ 0 < token.length ∧
                  token.last = last)) ∧
    ∀ maxDepth, Unreached (fun limit => registry.parse text limit) maxDepth →
      ∃ chart, registry.parse text maxDepth = .ok chart ∧ registry.Reached text [] chart ∧
        ∀ pattern ∈ registry.patterns, chart.scannedUntil pattern.id = text.length ∧
          ∀ position : Int, 0 ≤ position → position < text.length →
            (chart.outcome? position pattern.id).isSome := by
  have hcomplete : ∀ active chart, registry.Reached text active chart →
      ∀ id position : Int, 0 ≤ position → position < chart.scannedUntil id →
        position < text.length → (chart.outcome? position id).isSome := by
    intro active chart hchart id position hnonneg hscanned hlength
    refine (hchart.upheld hcoherent hclosed hacyclic).isSome_outcome? hnonneg hscanned ?_
    rwa [List.size_toArray, String.length_toList]
  refine ⟨fun active chart hchart => ⟨hcomplete active chart hchart, ?_⟩, ?_⟩
  · intro pattern hpattern hcalled last _ hlast maxDepth hunreached
    obtain ⟨after, hrun, hafter, hscanned⟩ := hchart.exists_scanUpTo hcoherent hclosed hacyclic
      hpattern hcalled hlast hunreached
    exact ⟨after, hrun, hafter, hscanned,
      (hafter.upheld hcoherent hclosed hacyclic).isSome_tail?_iff last pattern.id⟩
  · intro maxDepth hunreached
    obtain ⟨chart, hparse, hchart, hfrontier⟩ :=
      exists_reached_parse hcoherent hclosed hacyclic text hunreached
    refine ⟨chart, hparse, hchart, fun pattern hpattern => ⟨hfrontier pattern hpattern, ?_⟩⟩
    intro position hnonneg hlength
    refine hcomplete [] chart hchart pattern.id position hnonneg ?_ hlength
    rw [hfrontier pattern hpattern]
    exact hlength

/-- While a pattern that looks behind is under way at the last of three letters, the letter before
it is found in its slot once it has been scanned up to there; and after a parse all frontiers stand
at the end. -/
theorem frontier_complete_lookingBack : lookingBack.Coherent ∧ lookingBack.Closed ∧
    lookingBack.Acyclic ∧
    (∃ chart after, lookingBack.Reached "aab" [(2, 2)] chart ∧ chart.scannedUntil 0 = 0 ∧
      lookingBack.Reached "aab" [(2, 2)] after ∧ 1 < after.scannedUntil 0 ∧
        (after.outcome? 1 0).isSome ∧ ∃ start token,
          after.outcome? start 0 = some (some token) ∧ 0 < token.length ∧ token.last = 1) ∧
    ∃ chart, lookingBack.parse "aab" 8 = .ok chart ∧
      ∀ pattern ∈ lookingBack.patterns, chart.scannedUntil pattern.id = 3 := by
  obtain ⟨hreached, hparse⟩ := frontier_complete lookingBack_coherent lookingBack_closed
    lookingBack_acyclic "aab"
  have hpatterns : lookingBack.patterns = lookingBack.ledger.toList := rfl
  have hdepth : ∀ pattern ∈ lookingBack.patterns,
      pattern.depth lookingBack.depth ≤ Chart.roomFor 8 := by decide
  refine ⟨lookingBack_coherent, lookingBack_closed, lookingBack_acyclic, ?_, ?_⟩
  · have hletter : lookingBack.ledger[0] ∈ lookingBack.patterns := by simp [hpatterns]
    have hlooks : lookingBack.ledger[2] ∈ lookingBack.patterns := by simp [hpatterns]
    have hentered : lookingBack.Reached "aab" [(2, 2)] _ :=
      .entered .fresh hlooks trivial ⟨by decide, by decide⟩ rfl
    obtain ⟨after, hrun, hafter, hscanned, htail⟩ := (hreached _ _ hentered).2 _ hletter
      ⟨_, rfl, by decide⟩ 1 (by decide) (by decide) 8 (unreached_scanUpTo lookingBack_coherent
        lookingBack_closed lookingBack_acyclic (hdepth _ hletter) _ _ _)
    refine ⟨_, after, hentered, rfl, hafter, hscanned,
      (hreached _ after hafter).1 0 1 (by decide) hscanned (by decide), htail.mp ?_⟩
    have hslot : (((Chart.scanUpTo (fun start => Chart.tryPattern lookingBack.grammar
        lookingBack.ledger[0] start 8) 0 1).run ((Chart.enter 2 2).run
          (Chart.ofText "aab")).2).2.tail? 1 0).isSome = true := by
      decide +kernel
    have hlast : _ = after := congrArg Prod.snd hrun
    rw [← hlast]
    exact hslot
  · obtain ⟨chart, hchart, -, hfrontier⟩ := hparse 8 (unreached_parse lookingBack_coherent
      lookingBack_closed lookingBack_acyclic hdepth "aab")
    exact ⟨chart, hchart, fun pattern hpattern => (hfrontier pattern hpattern).1⟩

end Registry

end Motif
