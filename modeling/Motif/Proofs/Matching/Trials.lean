import Motif.Proofs.Matching.Composing
import Motif.Proofs.Matching.Growth
import Motif.Proofs.Matching.Transparency

/-!
# Trials

Whatever is tried on a chart, the chart grows and its indices keep agreeing with its outcomes,
however the patterns refer to each other and whether or not there is room for it. A pattern is
matched with a token that belongs to it, and a node with tokens that lead on from its start without
a gap. The only faults are those of references that lead nowhere.
-/

namespace Motif

/-- The patterns of a grammar are known ones, and a pattern to which a known one refers may be
missing only where that fault is allowed. -/
structure Grammar.Leads (grammar : Grammar) (known : Pattern → Prop)
    (allowed : Fault → Prop) : Prop where
  known_of_find? : ∀ {id pattern}, grammar.find? id = some pattern → known pattern
  missing : ∀ {pattern}, known pattern → ∀ id ∈ pattern.content.references,
    grammar.find? id = none → allowed (.missing id)

namespace Chart

open Evaluation (Fits)

/-- A match leads on from its start to a place inside the text by tokens of certain patterns. -/
structure Onward (consumed : Int → Prop) (start : Int) (chart : Chart) (reach : Reach) : Prop where
  tiles : Tiles chart start reach.children reach.stop
  stop_le : reach.stop ≤ chart.text.size
  consumed : ∀ child ∈ reach.children, consumed child.id

/-- Successive matches lead on together; each but an empty one takes at least one character. -/
structure Ran (consumed : Int → Prop) (start : Int) (chart : Chart) (run : Run) : Prop where
  onward : Onward consumed start chart ⟨run.stop, run.children⟩
  count_le : (run.count : Int) ≤ run.stop - start + 1

/-- All matches that there may be lead on. -/
def Leading (consumed : Int → Prop) (start : Int) (value : Option Reach) (chart : Chart) : Prop :=
  ∀ reach, value = some reach → Onward consumed start chart reach

variable {grammar : Grammar} {known : Pattern → Prop} {text : Array Char} {active : List Cell}
  {allowed : Fault → Prop} {consumed : Int → Prop} {chart : Chart}

theorem Onward.mono {other : Int → Prop} {start : Int} {reach : Reach}
    (honward : Onward consumed start chart reach) (hconsumed : ∀ id, consumed id → other id) :
    Onward other start chart reach :=
  ⟨honward.tiles, honward.stop_le, fun child hchild => hconsumed _ (honward.consumed child hchild)⟩

theorem Onward.grow {start : Int} {reach : Reach} {after : Chart}
    (honward : Onward consumed start chart reach)
    (hextends : Extends grammar known text active chart after) :
    Onward consumed start after reach where
  tiles := honward.tiles.mono fun _ => hextends.mem_tokens
  stop_le := by
    rw [hextends.grows.text_eq]
    exact honward.stop_le
  consumed := honward.consumed

theorem onward_nil {start : Int} (hstart : start ≤ chart.text.size) :
    Onward consumed start chart ⟨start, []⟩ :=
  ⟨rfl, hstart, fun _ hchild => absurd hchild List.not_mem_nil⟩

theorem Onward.append {start : Int} {first second : Reach}
    (hfirst : Onward consumed start chart first)
    (hsecond : Onward consumed first.stop chart second) :
    Onward consumed start chart ⟨second.stop, first.children ++ second.children⟩ where
  tiles := hfirst.tiles.append hsecond.tiles
  stop_le := hsecond.stop_le
  consumed child hchild := (List.mem_append.mp hchild).elim (hfirst.consumed child)
    (hsecond.consumed child)

theorem Onward.start_le {start : Int} {reach : Reach}
    (honward : Onward consumed start chart reach) : start ≤ chart.text.size :=
  honward.tiles.le.trans honward.stop_le

section Nodes

/-! ## Submatches -/

theorem yields_repeatMatch {once : Int → Action (Option Reach)}
    (honce : ∀ position : Int, position ≤ text.size →
      Yields (Extends grammar known text active) (once position) (Leading consumed position)
        allowed)
    (tries : Nat) {position : Int} (hposition : position ≤ text.size) :
    Yields (Extends grammar known text active) (repeatMatch once tries position)
      (fun run chart => Ran consumed position chart run) allowed := by
  intro chart hchart
  have hsize : position ≤ chart.text.size := by rwa [hchart.indexed.text_eq]
  induction tries generalizing position chart with
  | zero => exact .pure hchart ⟨onward_nil hsize, by simp⟩
  | succ tries ih =>
      rw [repeatMatch]
      refine (honce position hposition chart hchart).bind fun value middle hmiddle hvalue => ?_
      have hsettled := Growth.refl_right hmiddle
      have hinside : position ≤ middle.text.size := by rwa [hmiddle.grows.text_eq]
      cases value with
      | none => exact .pure hsettled ⟨onward_nil hinside, by simp⟩
      | some reach =>
          have honward := hvalue reach rfl
          dsimp only
          split
          next => exact .pure hsettled ⟨onward_nil hinside, by simp⟩
          next hstop =>
            have hstops : reach.stop ≤ text.size := by
              have hle := honward.stop_le
              rwa [hmiddle.indexed.text_eq] at hle
            refine (ih hstops middle hsettled honward.stop_le).bind fun run after hafter hrun => ?_
            refine .pure (Growth.refl_right hafter) ⟨?_, ?_⟩
            · exact (honward.grow hafter).append hrun.onward
            · -- The submatch is not empty, and so there is a character less for the rest.
              have hlow := honward.tiles.le
              have hcount := hrun.count_le
              push_cast
              omega

/-- As many tries as there are characters left, and one more, are as good as any greater number. -/
theorem run_repeatMatch_eq {once : Int → Action (Option Reach)}
    (honce : ∀ position : Int, position ≤ text.size →
      Yields (Extends grammar known text active) (once position) (Leading consumed position)
        allowed)
    {tries more : Nat} {position : Int} (hposition : position ≤ text.size)
    (htries : text.size - position < tries) (hmore : text.size - position < more)
    (hchart : Extends grammar known text active chart chart) :
    (repeatMatch once tries position).run chart = (repeatMatch once more position).run chart := by
  induction tries generalizing more position chart with
  | zero => omega
  | succ tries ih =>
      obtain ⟨more, rfl⟩ := Nat.exists_eq_succ_of_ne_zero (show more ≠ 0 by omega)
      obtain ⟨result, middle, hrun, hmiddle, hresult⟩ := honce position hposition chart hchart
      rw [repeatMatch, repeatMatch]
      cases result with
      | error fault => rw [run_bind_of_error hrun, run_bind_of_error hrun]
      | ok value =>
          rw [run_bind_of_ok hrun, run_bind_of_ok hrun]
          cases value with
          | none => rfl
          | some reach =>
              have honward := hresult reach rfl
              have hlow := honward.tiles.le
              have hhigh := honward.stop_le
              rw [hmiddle.indexed.text_eq] at hhigh
              dsimp only
              split
              next => rfl
              next hstop =>
                have hrest : (repeatMatch once tries reach.stop).run middle =
                    (repeatMatch once more reach.stop).run middle :=
                  ih hhigh (by omega) (by omega) (Growth.refl_right hmiddle)
                rcases hone : (repeatMatch once tries reach.stop).run middle with ⟨one, after⟩
                rw [hone] at hrest
                cases one with
                | error fault => rw [run_bind_of_error hone, run_bind_of_error hrest.symm]
                | ok run => rw [run_bind_of_ok hone, run_bind_of_ok hrest.symm]

variable {node : Node → Int → Action (Option Reach)}

theorem yields_matchSequence {sequence : List Node}
    (hnode : ∀ child ∈ sequence, ∀ position : Int, position ≤ text.size →
      Yields (Extends grammar known text active) (node child position) (Leading consumed position)
        allowed)
    {position : Int} (hposition : position ≤ text.size) :
    Yields (Extends grammar known text active) (matchSequence node sequence position)
      (Leading consumed position) allowed := by
  intro chart hchart
  induction sequence generalizing position chart with
  | nil =>
      refine .pure hchart ?_
      rintro reach ⟨⟩
      exact onward_nil (by rwa [hchart.indexed.text_eq])
  | cons first rest ih =>
      rw [matchSequence]
      refine (hnode first List.mem_cons_self position hposition chart hchart).bind
        fun value middle hmiddle hvalue => ?_
      cases value with
      | none => exact .pure (Growth.refl_right hmiddle) (by simp [Leading])
      | some reach =>
          have honward := hvalue reach rfl
          have hstops : reach.stop ≤ text.size := by
            have hle := honward.stop_le
            rwa [hmiddle.indexed.text_eq] at hle
          refine (ih (fun child hchild => hnode child (List.mem_cons_of_mem _ hchild)) hstops middle
            (Growth.refl_right hmiddle)).bind fun tail after hafter htail => ?_
          cases tail with
          | none => exact .pure (Growth.refl_right hafter) (by simp [Leading])
          | some last =>
              refine .pure (Growth.refl_right hafter) ?_
              rintro reach ⟨⟩
              exact (honward.grow hafter).append (htail last rfl)

theorem yields_matchAlternatives {alternatives : List (List Node)}
    (hnode : ∀ sequence ∈ alternatives, ∀ child ∈ sequence, ∀ position : Int,
      position ≤ text.size → Yields (Extends grammar known text active) (node child position)
        (Leading consumed position) allowed)
    {position : Int} (hposition : position ≤ text.size) :
    Yields (Extends grammar known text active) (matchAlternatives node alternatives position)
      (Leading consumed position) allowed := by
  intro chart hchart
  induction alternatives generalizing chart with
  | nil => exact .pure hchart (by simp [Leading])
  | cons first rest ih =>
      rw [matchAlternatives]
      refine (yields_matchSequence (hnode first List.mem_cons_self) hposition chart hchart).bind
        fun value middle hmiddle hvalue => ?_
      cases value with
      | none =>
          exact ih (fun sequence hsequence => hnode sequence (List.mem_cons_of_mem _ hsequence))
            middle (Growth.refl_right hmiddle)
      | some reach => exact .pure (Growth.refl_right hmiddle) hvalue

/-- What looks ahead or must be absent consumes nothing. -/
theorem leading_outcomeOf {quantity : Quantity} {look : Look} (hlook : look ≠ .behind) {start : Int}
    {run : Run} (hrun : Ran consumed start chart run) :
    Leading (fun id => look = .here ∧ consumed id) start (outcomeOf quantity look start run)
      chart := by
  have hstart := hrun.onward.start_le
  intro reach hreach
  unfold outcomeOf at hreach
  split at hreach
  next =>
    split at hreach <;> cases hreach
    exact onward_nil hstart
  next =>
    split at hreach
    next => cases hreach
    next =>
      split at hreach <;> cases hreach
      next => exact onward_nil hstart
      next hahead =>
        have hhere : look = .here := by
          cases look with
          | here => rfl
          | ahead => exact absurd rfl hahead
          | behind => exact absurd rfl hlook
        exact hrun.onward.mono fun _ hconsumed => ⟨hhere, hconsumed⟩

theorem yields_nodeStep {behind : Node → Int → Action (Option Int)} {target : Node}
    (hbehind : ∀ last, Yields (Extends grammar known text active) (behind target last)
      (fun _ _ => True) allowed)
    (honce : ∀ position : Int, position ≤ text.size →
      Yields (Extends grammar known text active) (node target position) (Leading consumed position)
        allowed)
    {start : Int} (hstart : start ≤ text.size) :
    Yields (Extends grammar known text active) (nodeStep behind node target start)
      (Leading (fun id => target.look = .here ∧ consumed id) start) allowed := by
  intro chart hchart
  unfold nodeStep
  split
  next =>
    refine (hbehind (start - 1) chart hchart).bind fun value after hafter _ => ?_
    refine .pure (Growth.refl_right hafter) ?_
    intro reach hreach
    split at hreach <;> cases hreach
    exact onward_nil (by rwa [hafter.indexed.text_eq])
  next hlook =>
    refine .read ?_
    have hrun := yields_repeatMatch honce (triesOf target.quantity chart.text.size) hstart
    refine (hrun chart hchart).bind fun run after hafter hran => ?_
    exact .pure (Growth.refl_right hafter) (leading_outcomeOf hlook hran)

end Nodes

/-! ## Patterns -/

theorem yieldsFrom_markScanned (hchart : Extends grammar known text active chart chart)
    (id position : Int) :
    YieldsFrom (Extends grammar known text active) chart
      (modify fun chart => chart.markScanned id position) (fun _ _ => True) allowed :=
  ⟨.ok ⟨⟩, _, rfl, hchart.indexed.extends_markScanned id position, trivial⟩

theorem yields_scan {attempt : Int → Action (Option Token)}
    (hattempt : ∀ position, Yields (Extends grammar known text active) (attempt position)
      (fun _ _ => True) allowed)
    (id : Int) (count : Nat) (position : Int) :
    Yields (Extends grammar known text active) (scan attempt id count position) (fun _ _ => True)
      allowed := by
  intro chart hchart
  induction count generalizing position chart with
  | zero => exact .pure hchart trivial
  | succ count ih =>
      rw [scan]
      refine (hattempt position chart hchart).bind fun _ middle hmiddle _ => ?_
      refine (yieldsFrom_markScanned (Growth.refl_right hmiddle) id position).bind
        fun _ after hafter _ => ?_
      exact ih (position + 1) after (Growth.refl_right hafter)

/-- A value that a pattern may have at a position: a token that belongs to it and, unless it is
empty, stands in the chart. -/
def Suits (pattern : Pattern) (start : Int) (value : Option Token) (chart : Chart) : Prop :=
  ∀ found, value = some found → Fits chart.text pattern.id start found ∧
    (0 < found.length → found ∈ chart.tokens)

/-- What has been built for a pattern: a token that belongs to it and is made of what it
consumes. -/
def Built (grammar : Grammar) (pattern : Pattern) (start : Int) (value : Option Token)
    (chart : Chart) : Prop :=
  ∀ found, value = some found → Fits chart.text pattern.id start found ∧
    MadeBy chart grammar.Consumes pattern found

theorem yields_build {node : Node → Int → Action (Option Reach)} {pattern : Pattern} {start : Int}
    (hnonneg : 0 ≤ start) (hsize : start < text.size)
    (hnode : ∀ root, pattern.content = .tree root →
      Yields (Extends grammar known text active) (node root start)
        (Leading (grammar.Consumes root) start) allowed) :
    Yields (Extends grammar known text active) (build node pattern start)
      (Built grammar pattern start) allowed := by
  intro chart hchart
  unfold build
  cases hcontent : pattern.content with
  | literal word =>
      refine .read (.pure hchart ?_)
      intro found hfound
      rw [spells_eq] at hfound
      split at hfound
      next hspelled =>
        cases hfound
        have hword := (List.isPrefixOf_iff_prefix.mp (Bool.and_eq_true_iff.mp hspelled).2).length_le
        rw [String.length_toList, List.length_drop, Array.length_toList, hchart.indexed.text_eq]
          at hword
        refine ⟨⟨rfl, rfl, hnonneg, Int.natCast_nonneg _, ?_⟩, by simp [MadeBy, hcontent]⟩
        rw [hchart.indexed.text_eq]
        change start + (word.length : Int) ≤ text.size
        omega
      next => cases hfound
  | tree root =>
      refine (hnode root hcontent chart hchart).bind fun value after hafter hvalue => ?_
      cases value with
      | none => exact .pure (Growth.refl_right hafter) (by simp [Built])
      | some reach =>
          have honward := hvalue reach rfl
          have hlow := honward.tiles.le
          refine .read (.pure (Growth.refl_right hafter) ?_)
          rintro found ⟨⟩
          have hstop : start + (reach.stop - start) = reach.stop := by omega
          refine ⟨⟨rfl, rfl, hnonneg, Int.sub_nonneg_of_le hlow, ?_⟩, ?_⟩
          · change start + (reach.stop - start) ≤ _
            rw [hstop]
            exact honward.stop_le
          · simp only [MadeBy, hcontent, Token.stop, hstop]
            split
            next => exact ⟨honward.tiles, honward.consumed⟩
            next => rfl

/-- What has been built in a trial without outcome yet is entered once the trial is no longer under
way, and nothing else is. -/
theorem exists_attempt {node : Node → Int → Action (Option Reach)} {pattern : Pattern}
    {start : Int} (hchart : Indexed text active chart) (hknown : known pattern)
    (hfree : (start, pattern.id) ∉ active) {outcome : Option Token} {middle : Chart}
    (hrun : (build node pattern start).run
      { chart with active := (start, pattern.id) :: chart.active } = (.ok outcome, middle))
    (hmiddle : Extends grammar known text ((start, pattern.id) :: active)
      { chart with active := (start, pattern.id) :: chart.active } middle)
    (hbuilt : Built grammar pattern start outcome middle) :
    ∃ after, (attempt node pattern start).run chart = (.ok outcome, after) ∧
      Extends grammar known text active chart after ∧ Grows middle after ∧
        after.scanned = middle.scanned ∧
          ∀ place other, after.outcome? place other =
            if start = place ∧ pattern.id = other then some outcome
            else middle.outcome? place other := by
  have hleft : Extends grammar known text active chart (middle.leave start pattern.id) :=
    .leave hchart hmiddle
  -- Nobody else has entered an outcome for the cell while the trial was under way.
  have hstill : (middle.leave start pattern.id).outcome? start pattern.id = none :=
    hmiddle.indexed.outcome_of_active List.mem_cons_self
  have hmade : ∀ found, outcome = some found → Fits text pattern.id start found ∧
      MadeBy (middle.leave start pattern.id) grammar.Consumes pattern found := by
    intro found hfound
    obtain ⟨hfits, hmade⟩ := hbuilt found hfound
    rw [hmiddle.indexed.text_eq] at hfits
    exact ⟨hfits, hmade.mono (fun _ hmem => hmem) fun _ _ hconsumes => hconsumes⟩
  obtain ⟨after, hafter, hextends, hscanned, hcells⟩ :=
    hleft.indexed.exists_remember hknown hstill hfree hmade
  rw [← hchart.active_eq] at hfree
  exact ⟨after, run_attempt hfree hrun hafter, Growth.trans hleft hextends,
    (Grows.withActive middle _).trans hextends.grows, hscanned, hcells⟩

/-- A trial that is under way already ends at once. -/
theorem run_attempt_of_active {pattern : Pattern} {start : Int}
    (hactive : (start, pattern.id) ∈ chart.active) (node : Node → Int → Action (Option Reach)) :
    (attempt node pattern start).run chart = (.ok none, chart) := by
  have henter : (enter start pattern.id).run chart = (.ok false, chart) := by
    unfold enter
    refine (run_read_bind chart).trans ?_
    rw [List.contains_iff_mem.mpr hactive]
    rfl
  unfold attempt
  exact (run_bind_of_ok henter).trans rfl

/-- A trial without outcome yet ends with a token of its pattern. -/
theorem yieldsFrom_attempt {node : Node → Int → Action (Option Reach)} {pattern : Pattern}
    {start : Int} (hchart : Indexed text active chart) (hknown : known pattern)
    (hnew : chart.outcome? start pattern.id = none)
    (hbuild : ∀ active, Yields (Extends grammar known text active) (build node pattern start)
      (Built grammar pattern start) allowed) :
    YieldsFrom (Extends grammar known text active) chart (attempt node pattern start)
      (Suits pattern start) allowed := by
  by_cases hactive : (start, pattern.id) ∈ active
  · rw [← hchart.active_eq] at hactive
    exact ⟨.ok none, chart, run_attempt_of_active hactive node, hchart.extends_self,
      by simp [Suits]⟩
  · obtain ⟨result, middle, hrun, hmiddle, hresult⟩ := hbuild _ _ (hchart.enter hnew).extends_self
    cases result with
    | error fault =>
        refine ⟨.error fault, middle.leave start pattern.id, ?_, .leave hchart hmiddle, hresult⟩
        rw [← hchart.active_eq] at hactive
        unfold attempt
        refine (run_bind_of_ok (run_enter hactive)).trans ?_
        exact run_bind_of_error (run_guarded hrun start pattern.id)
    | ok outcome =>
        obtain ⟨after, hafter, hextends, -, -, hcells⟩ :=
          exists_attempt hchart hknown hactive hrun hmiddle hresult
        refine ⟨.ok outcome, after, hafter, hextends, ?_⟩
        rintro found rfl
        have houtcome : after.outcome? start pattern.id = some (some found) := by
          rw [hcells, if_pos ⟨rfl, rfl⟩]
        refine ⟨?_, hextends.indexed.mem_tokens_of_outcome houtcome⟩
        rw [hextends.indexed.text_eq]
        exact hextends.indexed.fits houtcome

/-- What is remembered suits the pattern, and what is not remembered is tried. -/
theorem yields_recalled {pattern : Pattern} {start : Int} {attempt : Action (Option Token)}
    (hattempt : 0 ≤ start → start < text.size → ∀ chart, Indexed text active chart →
      chart.outcome? start pattern.id = none →
        YieldsFrom (Extends grammar known text active) chart attempt (Suits pattern start)
          allowed) :
    Yields (Extends grammar known text active) (recalled pattern start attempt)
      (Suits pattern start) allowed := by
  intro chart hchart
  unfold recalled
  refine .read ?_
  split
  next => exact .pure hchart (by simp [Suits])
  next hcovers =>
    have hinside : 0 ≤ start ∧ start < text.size := by
      simpa [covers, size, hchart.indexed.text_eq] using hcovers
    refine .read ?_
    cases houtcome : chart.outcome? start pattern.id with
    | none => exact hattempt hinside.1 hinside.2 chart hchart.indexed houtcome
    | some outcome =>
        refine .pure hchart ?_
        rintro found rfl
        refine ⟨?_, hchart.indexed.mem_tokens_of_outcome houtcome⟩
        rw [hchart.indexed.text_eq]
        exact hchart.indexed.fits houtcome

/-- Where a reference of the node leads nowhere, that fault is allowed. -/
def Resolves (grammar : Grammar) (allowed : Fault → Prop) (node : Node) : Prop :=
  ∀ id ∈ node.references, grammar.find? id = none → allowed (.missing id)

theorem Resolves.child {alternatives : List (List Node)} {quantity : Quantity} {look : Look}
    (hgroup : Resolves grammar allowed (.group alternatives quantity look))
    {sequence : List Node} (hsequence : sequence ∈ alternatives) {child : Node}
    (hchild : child ∈ sequence) : Resolves grammar allowed child := fun id hid =>
  hgroup id (Node.mem_references_group.mpr ⟨sequence, hsequence, child, hchild, hid⟩)

theorem Grammar.Leads.resolves (hleads : grammar.Leads known allowed) {pattern : Pattern}
    (hknown : known pattern) {root : Node} (hcontent : pattern.content = .tree root) :
    Resolves grammar allowed root := by
  have hmissing := hleads.missing hknown
  rw [hcontent] at hmissing
  exact hmissing

theorem yieldsFrom_get (hchart : Extends grammar known text active chart chart) {id : Int}
    (hid : grammar.find? id = none → allowed (.missing id)) :
    YieldsFrom (Extends grammar known text active) chart (liftM (grammar.get id))
      (fun found _ => grammar.find? id = some found) allowed := by
  apply YieldsFrom.lift hchart
  unfold Grammar.get
  cases hfind : grammar.find? id with
  | some pattern => rfl
  | none => exact hid hfind

theorem yields_behindStep (hleads : grammar.Leads known allowed)
    {pattern : Pattern → Int → Action (Option Token)} {back : Node → Int → Action (Option Int)}
    (hpattern : ∀ found, known found → ∀ position,
      Yields (Extends grammar known text active) (pattern found position) (fun _ _ => True) allowed)
    (hback : ∀ child, Resolves grammar allowed child → ∀ last,
      Yields (Extends grammar known text active) (back child last) (fun _ _ => True) allowed)
    {target : Node} (htarget : Resolves grammar allowed target) (last : Int) :
    Yields (Extends grammar known text active) (behindStep grammar pattern back target last)
      (fun _ _ => True) allowed := by
  intro chart hchart
  unfold behindStep
  split
  next => exact .pure hchart trivial
  next =>
    cases target with
    | ref id quantity look =>
        refine (yieldsFrom_get hchart (htarget id (by simp))).bind
          fun found middle hmiddle hfound => ?_
        refine .read ?_
        have hscan := yields_scan (hpattern found (hleads.known_of_find? hfound)) found.id
          (last + 1 - middle.scannedUntil found.id).toNat (middle.scannedUntil found.id)
        refine (hscan middle (Growth.refl_right hmiddle)).bind fun _ after hafter _ => ?_
        exact .read (.pure (Growth.refl_right hafter) trivial)
    | group alternatives quantity look =>
        exact (composable_yields allowed).behindAlternatives (fun sequence hsequence child hchild =>
          hback child (htarget.child hsequence hchild)) last chart hchart

theorem yields_onceStep (hleads : grammar.Leads known allowed)
    {pattern : Pattern → Int → Action (Option Token)} {node : Node → Int → Action (Option Reach)}
    (hpattern : ∀ found, known found → ∀ position, Yields (Extends grammar known text active)
      (pattern found position) (Suits found position) allowed)
    (hnode : ∀ child, Resolves grammar allowed child → ∀ position : Int, position ≤ text.size →
      Yields (Extends grammar known text active) (node child position)
        (Leading (grammar.Consumes child) position) allowed)
    {target : Node} (htarget : Resolves grammar allowed target) {position : Int}
    (hposition : position ≤ text.size) :
    Yields (Extends grammar known text active) (onceStep grammar pattern node target position)
      (Leading (grammar.Consumes (target.withLook .here)) position) allowed := by
  intro chart hchart
  unfold onceStep
  cases target with
  | ref id quantity look =>
      refine (yieldsFrom_get hchart (htarget id (by simp))).bind
        fun found middle hmiddle hfound => ?_
      refine (hpattern found (hleads.known_of_find? hfound) position middle
        (Growth.refl_right hmiddle)).bind fun value after hafter hvalue => ?_
      cases value with
      | none => exact .pure (Growth.refl_right hafter) (by simp [Leading])
      | some token =>
          refine .pure (Growth.refl_right hafter) ?_
          rintro reach ⟨⟩
          obtain ⟨hfits, hmem⟩ := hvalue token rfl
          have hnonneg := hfits.length_nonneg
          split
          next hlength =>
            have hpositive : 0 < token.length := by omega
            refine ⟨⟨hmem hpositive, hpositive, hfits.start_eq, rfl⟩, hfits.stop_le, ?_⟩
            intro child hchild
            obtain rfl := List.mem_singleton.mp hchild
            exact ⟨id, found, .ref quantity, hfound, hfits.id_eq.symm⟩
          next hlength =>
            have hstop : token.stop = position := by
              have hstart := hfits.start_eq
              unfold Token.stop
              omega
            rw [hstop]
            exact onward_nil (by rwa [hafter.indexed.text_eq])
  | group alternatives quantity look =>
      refine yields_matchAlternatives (fun sequence hsequence child hchild start hstart => ?_)
        hposition chart hchart
      intro middle hmiddle
      refine (hnode child (htarget.child hsequence hchild) start hstart middle hmiddle).mono
        fun value after _ hvalue reach hreach => ?_
      refine (hvalue reach hreach).mono ?_
      rintro id ⟨reference, found, hconsumes, hfound⟩
      exact ⟨reference, found, .inside hsequence hchild hconsumes, hfound⟩

/-- With any room, whatever is matched extends the chart. The three kinds of trials descend
together, so this is one induction on the room. -/
theorem yields_of_room (text : Array Char) (hleads : grammar.Leads known allowed) (room : Nat) :
    (∀ active pattern, known pattern → ∀ start,
      Yields (Extends grammar known text active) (matchPattern grammar room pattern start)
        (Suits pattern start) allowed) ∧
    (∀ active node, Resolves grammar allowed node → ∀ start : Int, start ≤ text.size →
      Yields (Extends grammar known text active) (matchNode grammar room node start)
        (Leading (grammar.Consumes node) start) allowed) ∧
    (∀ active node, Resolves grammar allowed node → ∀ last,
      Yields (Extends grammar known text active) (matchBehind grammar room node last)
        (fun _ _ => True) allowed) := by
  induction room with
  | zero =>
      refine ⟨?_, ?_, ?_⟩
      · -- Without room a pattern is matched only by what is remembered of it.
        intro active pattern _ start
        rw [matchPattern]
        exact yields_recalled fun _ _ chart hchart _ =>
          .pure hchart.extends_self (by simp [Suits])
      · intro active node _ start _ chart hchart
        exact .pure hchart (by simp [Leading])
      · intro active node _ last chart hchart
        exact .pure hchart trivial
  | succ room ih =>
      obtain ⟨ihPattern, ihNode, ihBehind⟩ := ih
      have hany : ∀ active pattern, known pattern → ∀ start,
          Yields (Extends grammar known text active) (matchPattern grammar room pattern start)
            (fun _ _ => True) allowed := fun active pattern hknown start chart hchart =>
        (ihPattern active pattern hknown start chart hchart).mono fun _ _ _ _ => trivial
      have hbehind : ∀ active node, Resolves grammar allowed node → ∀ last,
          Yields (Extends grammar known text active)
            (behindStep grammar (matchPattern grammar room) (matchBehind grammar room) node last)
            (fun _ _ => True) allowed := fun active node hnode last =>
        yields_behindStep hleads (hany active) (ihBehind active) hnode last
      refine ⟨?_, ?_, ?_⟩
      · intro active pattern hknown start
        rw [matchPattern]
        refine yields_recalled fun hnonneg hsize chart hchart hnew => ?_
        refine yieldsFrom_attempt hchart hknown hnew fun active => yields_build hnonneg hsize ?_
        intro root hcontent
        exact ihNode active root (Grammar.Leads.resolves hleads hknown hcontent) start (by omega)
      · intro active node hnode start hstart chart hchart
        rw [matchNode]
        refine (yields_nodeStep (hbehind active node hnode) (fun position hposition =>
          yields_onceStep hleads (ihPattern active) (ihNode active) hnode hposition) hstart chart
            hchart).mono fun value after _ hvalue reach hreach => ?_
        refine (hvalue reach hreach).mono ?_
        rintro id ⟨hlook, hconsumes⟩
        have hsame : node.withLook .here = node := by
          rw [← hlook]
          cases node <;> rfl
        rwa [hsame] at hconsumes
      · intro active node hnode last
        rw [matchBehind]
        exact hbehind active node hnode last

/-- Trying patterns at every position of the text extends the chart. -/
theorem yields_fill (hleads : grammar.Leads known allowed) {patterns : List Pattern}
    (hpatterns : ∀ pattern ∈ patterns, known pattern) (maxDepth : Int) :
    Yields (Extends grammar known text active) (fill grammar patterns maxDepth) (fun _ _ => True)
      allowed := by
  intro chart hchart
  refine .read ?_
  refine Yields.forM (fun position _ => ?_) chart hchart
  refine .forM fun pattern hpattern chart hchart => ?_
  obtain ⟨htrial, -⟩ := yields_of_room text hleads (roomFor maxDepth)
  refine (htrial active pattern (hpatterns pattern hpattern) position chart hchart).bind
    fun _ after hafter _ => ?_
  exact yieldsFrom_markScanned (Growth.refl_right hafter) pattern.id position

end Chart

namespace Registry

variable {registry : Registry}

theorem mem_patterns_of_byId? {id : Int} {pattern : Pattern}
    (hpattern : registry.byId? id = some pattern) : pattern ∈ registry.patterns := by
  obtain ⟨serial, hserial, hledger⟩ := Option.bind_eq_some_iff.mp hpattern
  have hentry : (id, serial) ∈ registry.entries := mem_of_lookup hserial
  simp only [patterns, registered, List.mem_map, List.mem_filterMap, Option.map_eq_some_iff]
  exact ⟨(serial, pattern), ⟨_, hentry, pattern, hledger, rfl⟩, rfl⟩

theorem Closed.leads (hclosed : registry.Closed) :
    registry.grammar.Leads (· ∈ registry.patterns) fun _ => False where
  known_of_find? hpattern := mem_patterns_of_byId? hpattern
  missing {pattern} hpattern id hid hnone := by
    change registry.byId? id = none at hnone
    have hsome := hclosed pattern hpattern id hid
    rw [hnone] at hsome
    cases hsome

/-- Where all references lead to registered patterns, a parse ends with a chart that extends the
empty one, whatever the room. -/
theorem Closed.exists_extends (hclosed : registry.Closed) (text : String) (maxDepth : Int) :
    ∃ chart, registry.parse text maxDepth = .ok chart ∧
      Chart.Extends registry.grammar (· ∈ registry.patterns) text.toList.toArray []
        (Chart.ofText text) chart := by
  obtain ⟨⟨⟩, chart, hrun, hchart, -⟩ := (Chart.yields_fill hclosed.leads (fun _ => id) maxDepth _
    (Chart.indexed_ofText text).extends_self).exists_ok
  refine ⟨chart, ?_, hchart⟩
  unfold parse
  rw [hrun]

/-- The indices of that chart agree with its outcomes. -/
theorem Closed.exists_parse (hclosed : registry.Closed) (text : String) (maxDepth : Int) :
    ∃ chart, registry.parse text maxDepth = .ok chart ∧
      Chart.Indexed text.toList.toArray [] chart := by
  obtain ⟨chart, hparse, hchart⟩ := hclosed.exists_extends text maxDepth
  exact ⟨chart, hparse, hchart.indexed⟩

end Registry

end Motif
