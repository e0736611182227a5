import Motif.Proofs.Matching.Trials

/-!
# Frontiers inside the text

A node is matched from a place inside the text or at its end, and whatever it consumes ends there
too; so a look behind never asks for more than the characters before such a place. Hence only
patterns of the grammar are ever tried in order, and none of them beyond the end of the text.
-/

namespace Motif.Chart

/-! ## Places that submatches stay at -/

section Places

variable {grows : Chart → Chart → Prop} [Growth grows] {inside : Int → Prop}
  {allowed : Fault → Prop}

/-- If there is a match, it ends at a place of a set. -/
def StopsAt (inside : Int → Prop) (value : Option Reach) (_ : Chart) : Prop :=
  ∀ reach, value = some reach → inside reach.stop

/-- If there is a match, it begins at a place of a set. -/
def StartsAt (inside : Int → Prop) (value : Option Int) (_ : Chart) : Prop :=
  ∀ start, value = some start → inside start

theorem yields_repeatMatch_inside {once : Int → Action (Option Reach)}
    (honce : ∀ position, inside position → Yields grows (once position) (StopsAt inside) allowed)
    (tries : Nat) {position : Int} (hposition : inside position) :
    Yields grows (repeatMatch once tries position) (fun run _ => inside run.stop) allowed := by
  induction tries generalizing position with
  | zero => exact fun _ hchart => .pure hchart hposition
  | succ tries ih =>
      intro chart hchart
      rw [repeatMatch]
      refine (honce position hposition chart hchart).bind fun value middle hmiddle hvalue => ?_
      have hsettled := Growth.refl_right hmiddle
      cases value with
      | none => exact .pure hsettled hposition
      | some reach =>
          dsimp only
          split
          next => exact .pure hsettled hposition
          next =>
            refine (ih (hvalue reach rfl) middle hsettled).bind fun run after hafter hrun => ?_
            exact .pure (Growth.refl_right hafter) hrun

section Forwards

variable {node : Node → Int → Action (Option Reach)}

theorem yields_matchSequence_inside {sequence : List Node}
    (hnode : ∀ child ∈ sequence, ∀ position, inside position →
      Yields grows (node child position) (StopsAt inside) allowed)
    {position : Int} (hposition : inside position) :
    Yields grows (matchSequence node sequence position) (StopsAt inside) allowed := by
  induction sequence generalizing position with
  | nil =>
      refine fun _ hchart => .pure hchart ?_
      rintro reach ⟨⟩
      exact hposition
  | cons first rest ih =>
      intro chart hchart
      rw [matchSequence]
      refine (hnode first List.mem_cons_self position hposition chart hchart).bind
        fun value middle hmiddle hvalue => ?_
      have hsettled := Growth.refl_right hmiddle
      cases value with
      | none => exact .pure hsettled (by simp [StopsAt])
      | some reach =>
          have hrest := ih (fun child hchild => hnode child (List.mem_cons_of_mem _ hchild))
            (hvalue reach rfl)
          refine (hrest middle hsettled).bind fun tail after hafter htail => ?_
          cases tail with
          | none => exact .pure (Growth.refl_right hafter) (by simp [StopsAt])
          | some last =>
              refine .pure (Growth.refl_right hafter) ?_
              rintro reach ⟨⟩
              exact htail last rfl

theorem yields_matchAlternatives_inside {alternatives : List (List Node)}
    (hnode : ∀ sequence ∈ alternatives, ∀ child ∈ sequence, ∀ position, inside position →
      Yields grows (node child position) (StopsAt inside) allowed)
    {position : Int} (hposition : inside position) :
    Yields grows (matchAlternatives node alternatives position) (StopsAt inside) allowed := by
  induction alternatives with
  | nil => exact fun _ hchart => .pure hchart (by simp [StopsAt])
  | cons first rest ih =>
      intro chart hchart
      rw [matchAlternatives]
      refine (yields_matchSequence_inside (hnode first List.mem_cons_self) hposition chart
        hchart).bind fun value middle hmiddle hvalue => ?_
      have hsettled := Growth.refl_right hmiddle
      cases value with
      | none =>
          exact ih (fun sequence hsequence => hnode sequence (List.mem_cons_of_mem _ hsequence))
            middle hsettled
      | some reach => exact .pure hsettled hvalue

end Forwards

section Backwards

variable {back : Node → Int → Action (Option Int)}

/-- What ends before one place of the set begins at another one, before which the next one ends. -/
theorem yields_behindSequence_inside {sequence : List Node}
    (hback : ∀ child ∈ sequence, ∀ last, inside (last + 1) →
      Yields grows (back child last) (StartsAt inside) allowed)
    {last : Int} (hlast : inside (last + 1)) :
    Yields grows (behindSequence back sequence last) (StartsAt inside) allowed := by
  induction sequence generalizing last with
  | nil =>
      refine fun _ hchart => .pure hchart ?_
      rintro start ⟨⟩
      exact hlast
  | cons first rest ih =>
      intro chart hchart
      rw [behindSequence]
      refine (hback first List.mem_cons_self last hlast chart hchart).bind
        fun value middle hmiddle hvalue => ?_
      have hsettled := Growth.refl_right hmiddle
      cases value with
      | none => exact .pure hsettled (by simp [StartsAt])
      | some start =>
          have hbefore : inside (start - 1 + 1) := by
            rw [Int.sub_add_cancel]
            exact hvalue start rfl
          exact ih (fun child hchild => hback child (List.mem_cons_of_mem _ hchild)) hbefore
            middle hsettled

theorem yields_behindAlternatives_inside {alternatives : List (List Node)}
    (hback : ∀ sequence ∈ alternatives, ∀ child ∈ sequence, ∀ last, inside (last + 1) →
      Yields grows (back child last) (StartsAt inside) allowed)
    {last : Int} (hlast : inside (last + 1)) :
    Yields grows (behindAlternatives back alternatives last) (StartsAt inside) allowed := by
  induction alternatives with
  | nil => exact fun _ hchart => .pure hchart (by simp [StartsAt])
  | cons first rest ih =>
      intro chart hchart
      rw [behindAlternatives]
      have hfirst := yields_behindSequence_inside (fun child hchild =>
        hback first List.mem_cons_self child (List.mem_reverse.mp hchild)) hlast
      refine (hfirst chart hchart).bind fun value middle hmiddle hvalue => ?_
      have hsettled := Growth.refl_right hmiddle
      cases value with
      | none =>
          exact ih (fun sequence hsequence => hback sequence (List.mem_cons_of_mem _ hsequence))
            middle hsettled
      | some start => exact .pure hsettled hvalue

end Backwards

theorem yields_nodeStep_inside {node : Node → Int → Action (Option Reach)}
    {back : Node → Int → Action (Option Int)} {target : Node}
    (hback : ∀ last, inside (last + 1) →
      Yields grows (back target last) (fun _ _ => True) allowed)
    (honce : ∀ position, inside position →
      Yields grows (node target position) (StopsAt inside) allowed)
    {start : Int} (hstart : inside start) :
    Yields grows (nodeStep back node target start) (StopsAt inside) allowed := by
  intro chart hchart
  unfold nodeStep
  split
  next =>
    have hbefore : inside (start - 1 + 1) := by rwa [Int.sub_add_cancel]
    refine (hback (start - 1) hbefore chart hchart).bind fun value after hafter _ => ?_
    refine .pure (Growth.refl_right hafter) ?_
    intro reach hreach
    split at hreach <;> cases hreach
    exact hstart
  next =>
    refine .read ?_
    have hrun := yields_repeatMatch_inside honce (triesOf target.quantity chart.text.size) hstart
    refine (hrun chart hchart).bind fun run after hafter hstop => ?_
    refine .pure (Growth.refl_right hafter) ?_
    intro reach hreach
    unfold outcomeOf at hreach
    split at hreach
    next =>
      split at hreach <;> cases hreach
      exact hstart
    next =>
      split at hreach
      next => cases hreach
      next => split at hreach <;> cases hreach <;> assumption

/-- A token is built by matching a tree, if there is one. -/
theorem yields_build_tree {node : Node → Int → Action (Option Reach)} {pattern : Pattern}
    {start : Int} (hnode : ∀ root, pattern.content = .tree root →
      Yields grows (node root start) (fun _ _ => True) allowed) :
    Yields grows (build node pattern start) (fun _ _ => True) allowed := by
  intro chart hchart
  unfold build
  cases hcontent : pattern.content with
  | literal word => exact .read (.pure hchart trivial)
  | tree root =>
      refine (hnode root hcontent chart hchart).bind fun value after hafter _ => ?_
      cases value with
      | none => exact .pure (Growth.refl_right hafter) trivial
      | some reach => exact .read (.pure (Growth.refl_right hafter) trivial)

end Places

/-! ## Frontiers -/

/-- The grammar has the pattern under the id that it carries. -/
abbrev Owned (grammar : Grammar) (pattern : Pattern) : Prop :=
  grammar.find? pattern.id = some pattern

/-- A chart has come about from another one by matching patterns of a grammar; only such patterns
have been tried in order, none of them beyond the end of the text. -/
structure Confines (grammar : Grammar) (text : Array Char) (active : List Cell)
    (before after : Chart) : Prop where
  extended : Extends grammar (Owned grammar) text active before after
  found : ∀ {id}, after.scannedUntil id ≠ 0 → (grammar.find? id).isSome
  scannedUntil_le : ∀ id, after.scannedUntil id ≤ text.size

variable {grammar : Grammar} {text : Array Char} {active : List Cell} {chart before after : Chart}

instance : Growth (Confines grammar text active) where
  trans hfirst hsecond :=
    ⟨Growth.trans hfirst.extended hsecond.extended, hsecond.found, hsecond.scannedUntil_le⟩
  refl_right hconfines :=
    ⟨Growth.refl_right hconfines.extended, hconfines.found, hconfines.scannedUntil_le⟩

/-- The operation ends without a fault, with frontiers inside the text and a value of a property. -/
abbrev Confined {α : Type} (grammar : Grammar) (text : Array Char) (active : List Cell)
    (action : Action α) (property : α → Chart → Prop) : Prop :=
  Yields (Confines grammar text active) action property fun _ => False

/-- Beyond what extends a chart only the frontiers matter. -/
theorem Confines.of_scanned {others : List Cell} {first middle : Chart}
    (hmiddle : Confines grammar text others first middle)
    (hextends : Extends grammar (Owned grammar) text active before after)
    (hscanned : after.scanned = middle.scanned) : Confines grammar text active before after := by
  have hsame (id : Int) : after.scannedUntil id = middle.scannedUntil id := by
    unfold scannedUntil
    rw [hscanned]
  refine ⟨hextends, fun {id} hmoved => ?_, fun id => ?_⟩
  · rw [hsame] at hmoved
    exact hmiddle.found hmoved
  · rw [hsame]
    exact hmiddle.scannedUntil_le id

theorem confines_ofText (text : String) :
    Confines grammar text.toList.toArray [] (ofText text) (ofText text) := by
  have hzero (id : Int) : (ofText text).scannedUntil id = 0 := by simp [scannedUntil, ofText]
  refine ⟨(indexed_ofText text).extends_self, fun {id} hmoved => absurd (hzero id) hmoved, ?_⟩
  intro id
  rw [hzero]
  exact Int.natCast_nonneg _

/-- The frontier of a pattern of the grammar may move over a position inside the text. -/
theorem Confines.markScanned (hchart : Confines grammar text active chart chart) {id : Int}
    (hfound : (grammar.find? id).isSome) {position : Int} (hposition : position < text.size) :
    Confines grammar text active chart (chart.markScanned id position) where
  extended := hchart.extended.indexed.extends_markScanned id position
  found {other} hmoved := by
    rw [scannedUntil_markScanned] at hmoved
    split at hmoved
    next hfrontier => exact hfrontier.1 ▸ hfound
    next => exact hchart.found hmoved
  scannedUntil_le other := by
    rw [scannedUntil_markScanned]
    split
    next => omega
    next => exact hchart.scannedUntil_le other

/-- A pattern of the grammar may be tried in order up to a position inside the text. -/
theorem confined_scan {attempt : Int → Action (Option Token)}
    (hattempt : ∀ position, Confined grammar text active (attempt position) fun _ _ => True)
    {id : Int} (hfound : (grammar.find? id).isSome) (count : Nat) {position : Int}
    (hcount : position + count ≤ text.size) :
    Confined grammar text active (scan attempt id count position) fun _ _ => True := by
  induction count generalizing position with
  | zero => exact fun _ hchart => .pure hchart trivial
  | succ count ih =>
      intro chart hchart
      push_cast at hcount
      rw [scan]
      refine (hattempt position chart hchart).bind fun _ middle hmiddle _ => ?_
      have hmark := (Growth.refl_right hmiddle).markScanned hfound
        (show position < text.size by omega)
      have hmodify : YieldsFrom (Confines grammar text active) middle
          (modify fun chart => chart.markScanned id position) (fun _ _ => True) fun _ => False :=
        ⟨.ok ⟨⟩, _, rfl, hmark, trivial⟩
      exact hmodify.bind fun _ after hafter _ => ih (by omega) after (Growth.refl_right hafter)

section Nodes

variable (hleads : grammar.Leads (Owned grammar) fun _ => False)
  {node : Node → Int → Action (Option Reach)} {back : Node → Int → Action (Option Int)}
  {trial : Pattern → Int → Action (Option Token)} {target : Node}

theorem Resolves.exists_owned (htarget : Resolves grammar (fun _ => False) target)
    (hleads : grammar.Leads (Owned grammar) fun _ => False) (id : Int)
    (hid : id ∈ target.references) :
    ∃ pattern, grammar.find? id = some pattern ∧ Owned grammar pattern := by
  cases hfind : grammar.find? id with
  | none => exact (htarget id hid hfind).elim
  | some pattern => exact ⟨pattern, rfl, hleads.known_of_find? hfind⟩

include hleads

/-- A look behind that ends inside the text begins there or right behind its end. -/
theorem confined_behindStep
    (htrial : ∀ pattern, Owned grammar pattern → ∀ position,
      Confined grammar text active (trial pattern position) fun _ _ => True)
    (hback : ∀ child, Resolves grammar (fun _ => False) child → ∀ last : Int,
      last + 1 ≤ text.size →
        Confined grammar text active (back child last) (StartsAt (· ≤ (text.size : Int))))
    (htarget : Resolves grammar (fun _ => False) target) {last : Int}
    (hlast : last + 1 ≤ text.size) :
    Confined grammar text active (behindStep grammar trial back target last)
      (StartsAt (· ≤ (text.size : Int))) := by
  intro chart hchart
  unfold behindStep
  split
  next => exact .pure hchart (by simp [StartsAt])
  next =>
    cases target with
    | group alternatives quantity look =>
        exact yields_behindAlternatives_inside
          (fun sequence hsequence child hchild =>
            hback child (htarget.child hsequence hchild)) hlast chart hchart
    | ref id quantity look =>
        obtain ⟨pattern, hfind, howned⟩ := htarget.exists_owned hleads id (by simp)
        simp only [Grammar.get, hfind, lift_ok_bind]
        refine .read ?_
        -- The frontier does not lie behind the end of the text even if nothing is left to scan.
        have hfrontier := hchart.scannedUntil_le pattern.id
        have hscan := confined_scan (htrial pattern howned)
          (show (grammar.find? pattern.id).isSome by simp [howned])
          (last + 1 - chart.scannedUntil pattern.id).toNat
          (show chart.scannedUntil pattern.id + _ ≤ (text.size : Int) by omega)
        refine (hscan chart hchart).bind fun _ after hafter _ => ?_
        refine .read (.pure (Growth.refl_right hafter) ?_)
        intro start hstart
        obtain ⟨token, htail, rfl⟩ := Option.map_eq_some_iff.mp hstart
        obtain ⟨-, hends, hlength⟩ := hafter.extended.indexed.outcome_of_tail htail
        unfold Token.last at hends
        omega

theorem confined_onceStep
    (htrial : ∀ pattern, Owned grammar pattern → ∀ position,
      Confined grammar text active (trial pattern position) (Suits pattern position))
    (hnode : ∀ child, Resolves grammar (fun _ => False) child → ∀ position : Int,
      position ≤ text.size →
        Confined grammar text active (node child position) (StopsAt (· ≤ (text.size : Int))))
    (htarget : Resolves grammar (fun _ => False) target) {position : Int}
    (hposition : position ≤ text.size) :
    Confined grammar text active (onceStep grammar trial node target position)
      (StopsAt (· ≤ (text.size : Int))) := by
  intro chart hchart
  unfold onceStep
  cases target with
  | group alternatives quantity look =>
      exact yields_matchAlternatives_inside
        (fun sequence hsequence child hchild =>
          hnode child (htarget.child hsequence hchild)) hposition chart hchart
  | ref id quantity look =>
      obtain ⟨pattern, hfind, howned⟩ := htarget.exists_owned hleads id (by simp)
      simp only [Grammar.get, hfind, lift_ok_bind]
      refine (htrial pattern howned position chart hchart).bind
        fun value after hafter hvalue => ?_
      cases value with
      | none => exact .pure (Growth.refl_right hafter) (by simp [StopsAt])
      | some token =>
          refine .pure (Growth.refl_right hafter) ?_
          rintro reach ⟨⟩
          have hstop := (hvalue token rfl).1.stop_le
          rwa [hafter.extended.indexed.text_eq] at hstop

end Nodes

/-! ## Trials -/

/-- A trial moves no frontier but those that building the token moves. -/
theorem confined_attempt {node : Node → Int → Action (Option Reach)} {pattern : Pattern}
    {start : Int} (hchart : Confines grammar text active chart chart)
    (howned : Owned grammar pattern) (hnew : chart.outcome? start pattern.id = none)
    (hbuild : ∀ active, Confined grammar text active (build node pattern start)
      (Built grammar pattern start)) :
    YieldsFrom (Confines grammar text active) chart (attempt node pattern start)
      (fun _ _ => True) fun _ => False := by
  have hindexed := hchart.extended.indexed
  by_cases hactive : (start, pattern.id) ∈ active
  · rw [← hindexed.active_eq] at hactive
    exact ⟨.ok none, chart, run_attempt_of_active hactive node, hchart, trivial⟩
  · have hentered : Extends grammar (Owned grammar) text ((start, pattern.id) :: active) _ _ :=
      (hindexed.enter hnew).extends_self
    obtain ⟨outcome, middle, hrun, hmiddle, hbuilt⟩ :=
      (hbuild _ _ (hchart.of_scanned hentered rfl)).exists_ok
    obtain ⟨after, hafter, hextends, -, hscanned, -⟩ :=
      exists_attempt hindexed howned hactive hrun hmiddle.extended hbuilt
    exact ⟨.ok outcome, after, hafter, hmiddle.of_scanned hextends hscanned, trivial⟩

/-- What is remembered moves no frontier, and what is not is tried. -/
theorem confined_recalled {pattern : Pattern} {start : Int} {attempt : Action (Option Token)}
    (hattempt : 0 ≤ start → start < text.size → ∀ chart,
      Confines grammar text active chart chart → chart.outcome? start pattern.id = none →
        YieldsFrom (Confines grammar text active) chart attempt (fun _ _ => True) fun _ => False) :
    Confined grammar text active (recalled pattern start attempt) fun _ _ => True := by
  intro chart hchart
  unfold recalled
  refine .read ?_
  split
  next => exact .pure hchart trivial
  next hcovers =>
    have hinside : 0 ≤ start ∧ start < text.size := by
      simpa [covers, size, hchart.extended.indexed.text_eq] using hcovers
    refine .read ?_
    cases houtcome : chart.outcome? start pattern.id with
    | none => exact hattempt hinside.1 hinside.2 chart hchart houtcome
    | some outcome => exact .pure hchart trivial

section Rooms

variable (hleads : grammar.Leads (Owned grammar) fun _ => False) {pattern : Pattern}
include hleads

/-- Without room a pattern is matched only by what is remembered of it. -/
theorem confined_matchPattern_zero (howned : Owned grammar pattern) (start : Int) :
    Confined grammar text active (matchPattern grammar 0 pattern start) (Suits pattern start) := by
  intro chart hchart
  have hsuits := (yields_of_room text hleads 0).1 active pattern howned start chart hchart.extended
  rw [matchPattern] at hsuits ⊢
  refine (confined_recalled (fun _ _ chart hchart _ => ?_) chart hchart).told hsuits
  exact .pure hchart trivial

theorem confined_matchPattern_succ {room : Nat}
    (hnode : ∀ active node, Resolves grammar (fun _ => False) node → ∀ start : Int,
      start ≤ text.size → Confined grammar text active (matchNode grammar room node start)
        (StopsAt (· ≤ (text.size : Int))))
    (howned : Owned grammar pattern) (start : Int) :
    Confined grammar text active (matchPattern grammar (room + 1) pattern start)
      (Suits pattern start) := by
  have hroot : ∀ root, pattern.content = .tree root → Resolves grammar (fun _ => False) root :=
    fun root hcontent => Grammar.Leads.resolves hleads howned hcontent
  intro chart hchart
  have hsuits := (yields_of_room text hleads (room + 1)).1 active pattern howned start chart
    hchart.extended
  rw [matchPattern] at hsuits ⊢
  refine (confined_recalled (fun hnonneg hsize chart hchart hnew => ?_) chart hchart).told hsuits
  refine confined_attempt hchart howned hnew fun active chart hchart => ?_
  -- Where nodes stop is told here, and what is built of them has been told before.
  have hbuilt := yields_build hnonneg hsize (fun root hcontent =>
    (yields_of_room text hleads room).2.1 active root (hroot root hcontent) start hsize.le) chart
    hchart.extended
  refine (yields_build_tree (fun root hcontent chart hchart => ?_) chart hchart).told hbuilt
  exact (hnode active root (hroot root hcontent) start hsize.le chart hchart).mono
    fun _ _ _ _ => trivial

/-- With any room, whatever is matched from inside the text leaves the frontiers there. The three
kinds of trials descend together, so this is one induction on the room. -/
theorem confined_of_room (text : Array Char) (room : Nat) :
    (∀ active pattern, Owned grammar pattern → ∀ start,
      Confined grammar text active (matchPattern grammar room pattern start)
        (Suits pattern start)) ∧
    (∀ active node, Resolves grammar (fun _ => False) node → ∀ start : Int, start ≤ text.size →
      Confined grammar text active (matchNode grammar room node start)
        (StopsAt (· ≤ (text.size : Int)))) ∧
    (∀ active node, Resolves grammar (fun _ => False) node → ∀ last : Int, last + 1 ≤ text.size →
      Confined grammar text active (matchBehind grammar room node last)
        (StartsAt (· ≤ (text.size : Int)))) := by
  induction room with
  | zero =>
      refine ⟨fun active pattern howned => confined_matchPattern_zero hleads howned, ?_, ?_⟩
      · intro active node _ start _ chart hchart
        exact .pure hchart (by simp [StopsAt])
      · intro active node _ last _ chart hchart
        exact .pure hchart (by simp [StartsAt])
  | succ room ih =>
      obtain ⟨ihPattern, ihNode, ihBehind⟩ := ih
      have hbehind : ∀ active node, Resolves grammar (fun _ => False) node → ∀ last : Int,
          last + 1 ≤ text.size → Confined grammar text active
            (behindStep grammar (matchPattern grammar room) (matchBehind grammar room) node last)
            (StartsAt (· ≤ (text.size : Int))) := by
        intro active node hnode last hlast
        refine confined_behindStep hleads (fun pattern howned position chart hchart => ?_)
          (ihBehind active) hnode hlast
        exact (ihPattern active pattern howned position chart hchart).mono fun _ _ _ _ => trivial
      refine ⟨fun active pattern => confined_matchPattern_succ hleads ihNode, ?_, ?_⟩
      · intro active node hnode start hstart
        rw [matchNode]
        refine yields_nodeStep_inside (fun last hlast chart hchart => ?_) (fun position hposition =>
          confined_onceStep hleads (ihPattern active) (ihNode active) hnode hposition) hstart
        exact (hbehind active node hnode last hlast chart hchart).mono fun _ _ _ _ => trivial
      · intro active node hnode last hlast
        rw [matchBehind]
        exact hbehind active node hnode last hlast

end Rooms

end Motif.Chart
