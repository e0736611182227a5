import Motif.Proofs.Matching.Charts
import Motif.Proofs.Matching.Trials

/-!
# Replaying

Where references do not lead back and there is room for all depths, whatever has been matched can
be matched again on any later chart: that gives the same value and leaves no trace. For all that a
trial has asked of the chart has been answered for good. The outcomes of other trials are
remembered, and a look behind has been told only after the positions up to there have been tried, so
that the slot it was read from stays as it is. After a parse the chart accounts for itself: each of
its outcomes is what building the token gives, now that everything else is known.
-/

namespace Motif

/-- Patterns that carry their ids and refer to patterns of the grammar lead on without a fault. -/
theorem Grammar.Layered.leads {grammar : Grammar} {rank : Int → Nat}
    (hlayered : grammar.Layered rank) :
    grammar.Leads (fun pattern => grammar.find? pattern.id = some pattern) fun _ => False where
  known_of_find? hfind := by
    rw [hlayered.id_eq hfind]
    exact hfind
  missing hknown id hid hnone := by
    have hsome := (hlayered.refers hknown id hid).1
    rw [hnone] at hsome
    cases hsome

namespace Chart

variable {α β : Type} {chart before after : Chart}

/-- From the chart on the operation gives the value at once and leaves no trace. -/
def Replays (action : Action α) (value : α) (chart : Chart) : Prop :=
  ∀ later, Grows chart later → action.run later = (.ok value, later)

theorem Replays.grow {action : Action α} {value : α} (hreplays : Replays action value before)
    (hgrows : Grows before after) : Replays action value after :=
  fun later hlater => hreplays later (hgrows.trans hlater)

theorem Replays.run_eq {action : Action α} {value : α} (hreplays : Replays action value chart) :
    action.run chart = (.ok value, chart) :=
  hreplays chart (.refl chart)

theorem Replays.bind {action : Action α} {next : α → Action β} {value : α} {result : β}
    (haction : Replays action value chart) (hnext : Replays (next value) result chart) :
    Replays (action >>= next) result chart :=
  fun later hlater => (run_bind_of_ok (haction later hlater)).trans (hnext later hlater)

/-- Every pattern has been tried at all positions of the text before its frontier. -/
def Swept (grammar : Grammar) (chart : Chart) : Prop :=
  ∀ ⦃id⦄, (grammar.find? id).isSome → ∀ position : Int, 0 ≤ position →
    position < chart.scannedUntil id → position < chart.text.size →
      (chart.outcome? position id).isSome

theorem swept_ofText (grammar : Grammar) (text : String) : Swept grammar (ofText text) := by
  intro id _ position hnonneg hscanned
  have hzero : (ofText text).scannedUntil id = 0 := by simp [scannedUntil, ofText]
  omega

/-- An outcome inside the text is what building the token of its pattern gives from then on, with
enough room. -/
def Rebuilt (grammar : Grammar) (depth : Int → Nat) (position id : Int) (outcome : Option Token)
    (chart : Chart) : Prop :=
  0 ≤ position ∧ position < chart.text.size ∧ ∃ pattern room, grammar.find? id = some pattern ∧
    pattern.depth depth ≤ room + 1 ∧
      Replays (build (matchNode grammar room) pattern position) outcome chart

theorem Rebuilt.grow {grammar : Grammar} {depth : Int → Nat} {position id : Int}
    {outcome : Option Token} (hrebuilt : Rebuilt grammar depth position id outcome before)
    (hgrows : Grows before after) : Rebuilt grammar depth position id outcome after := by
  obtain ⟨hnonneg, hsize, pattern, room, hfind, hroom, hreplays⟩ := hrebuilt
  rw [← hgrows.text_eq] at hsize
  exact ⟨hnonneg, hsize, pattern, room, hfind, hroom, hreplays.grow hgrows⟩

/-- A chart has come about from another one by matching patterns of a grammar, keeps its frontiers
behind what has been tried, and accounts for all new outcomes. -/
structure Accounts (grammar : Grammar) (depth : Int → Nat) (text : Array Char) (active : List Cell)
    (before after : Chart) : Prop where
  grown : Extends grammar (fun pattern => grammar.find? pattern.id = some pattern) text active
    before after
  swept : Swept grammar after
  rebuilt : ∀ {position id outcome}, before.outcome? position id = none →
    after.outcome? position id = some outcome → Rebuilt grammar depth position id outcome after

variable {grammar : Grammar} {rank depth : Int → Nat} {text : Array Char} {active : List Cell}

theorem Accounts.grows (haccounts : Accounts grammar depth text active before after) :
    Grows before after :=
  haccounts.grown.grows

theorem Indexed.accounts_self (hchart : Indexed text active chart) (hswept : Swept grammar chart) :
    Accounts grammar depth text active chart chart where
  grown := hchart.extends_self
  swept := hswept
  rebuilt hnone hsome := by
    rw [hnone] at hsome
    cases hsome

instance : Growth (Accounts grammar depth text active) where
  trans {first second third} hfirst hsecond := by
    refine ⟨Growth.trans hfirst.grown hsecond.grown, hsecond.swept, ?_⟩
    intro position id outcome hnone hsome
    cases hmiddle : second.outcome? position id with
    | none => exact hsecond.rebuilt hmiddle hsome
    | some remembered =>
        rw [hsecond.grows.outcome_eq hmiddle] at hsome
        rw [Option.some.inj hsome] at hmiddle
        exact (hfirst.rebuilt hnone hmiddle).grow hsecond.grows
  refl_right haccounts := haccounts.grown.indexed.accounts_self haccounts.swept

/-- From every chart the operation succeeds, accounts for what it adds, and replays from then on. -/
def Steady (grammar : Grammar) (depth : Int → Nat) (text : Array Char) (active : List Cell)
    (action : Action α) : Prop :=
  Yields (Accounts grammar depth text active) action
    (fun value chart => Replays action value chart) fun _ => False

theorem Steady.pure (value : α) :
    Steady grammar depth text active (pure value : Action α) :=
  fun _ hchart => .pure hchart fun _ _ => rfl

theorem Steady.bind {action : Action α} {next : α → Action β}
    (haction : Steady grammar depth text active action)
    (hnext : ∀ value, Steady grammar depth text active (next value)) :
    Steady grammar depth text active (action >>= next) := by
  intro chart hchart
  refine (haction chart hchart).bind fun value middle hmiddle hvalue => ?_
  refine (hnext value middle (Growth.refl_right hmiddle)).mono fun result after hafter hresult => ?_
  -- The first part replays on the chart of the second, since that chart has only grown.
  exact (hvalue.grow hafter.grows).bind hresult

theorem composable_steady : Composable (Steady grammar depth text active) :=
  ⟨Steady.pure, Steady.bind⟩

/-- An operation may read the text of the chart. -/
theorem Steady.read {next : Chart → Action α} {action : Action α}
    (hnext : ∀ chart, chart.text = text → next chart = action)
    (haction : Steady grammar depth text active action) :
    Steady grammar depth text active (getThe Chart >>= next) := by
  intro chart hchart
  have htext := hchart.grown.indexed.text_eq
  refine .read ?_
  rw [hnext chart htext]
  refine (haction chart hchart).mono fun value after hafter hvalue later hlater => ?_
  have hlast : later.text = text :=
    hlater.text_eq.trans (hafter.grows.text_eq.trans htext)
  rw [run_read_bind, hnext later hlast]
  exact hvalue later hlater

/-! ## Submatches -/

section Nodes

variable {node : Node → Int → Action (Option Reach)} {back : Node → Int → Action (Option Int)}

theorem steady_nodeStep {target : Node}
    (hback : ∀ last, Steady grammar depth text active (back target last))
    (hnode : ∀ position, Steady grammar depth text active (node target position)) (start : Int) :
    Steady grammar depth text active (nodeStep back node target start) := by
  unfold nodeStep
  split
  next => exact (hback (start - 1)).bind fun _ => .pure _
  next =>
    refine Steady.read (fun chart htext => by rw [htext]) ?_
    have hrun := composable_steady.repeatMatch hnode (triesOf target.quantity text.size) start
    exact hrun.bind fun _ => .pure _

theorem steady_build {pattern : Pattern} {start : Int}
    (hnode : ∀ root, pattern.content = .tree root →
      Steady grammar depth text active (node root start)) :
    Steady grammar depth text active (build node pattern start) := by
  unfold build
  cases hcontent : pattern.content with
  | literal word => exact Steady.read (fun chart htext => by rw [htext]) (.pure _)
  | tree root =>
      refine (hnode root hcontent).bind fun value => ?_
      cases value with
      | none => exact .pure _
      | some reach => exact Steady.read (fun chart htext => by rw [htext]) (.pure _)

end Nodes

/-! ## Patterns -/

/-- Inside the text the trial has been made. -/
def Tried (pattern : Pattern) (start : Int) (chart : Chart) : Prop :=
  0 ≤ start → start < chart.text.size → (chart.outcome? start pattern.id).isSome

theorem Tried.grow {pattern : Pattern} {start : Int} (htried : Tried pattern start before)
    (hgrows : Grows before after) : Tried pattern start after := by
  intro hnonneg hsize
  rw [hgrows.text_eq] at hsize
  obtain ⟨outcome, houtcome⟩ := Option.isSome_iff_exists.mp (htried hnonneg hsize)
  rw [hgrows.outcome_eq houtcome]
  rfl

/-- The operation is a trial of the pattern: it succeeds, replays from then on and leaves an outcome
inside the text. -/
def Tries (grammar : Grammar) (depth : Int → Nat) (text : Array Char) (active : List Cell)
    (pattern : Pattern) (start : Int) (action : Action (Option Token)) : Prop :=
  Yields (Accounts grammar depth text active) action
    (fun value chart => Replays action value chart ∧ Tried pattern start chart) fun _ => False

theorem Tries.steady {pattern : Pattern} {start : Int} {action : Action (Option Token)}
    (haction : Tries grammar depth text active pattern start action) :
    Steady grammar depth text active action :=
  fun chart hchart => (haction chart hchart).mono fun _ _ _ hvalue => hvalue.1

/-- A frontier may move over a position that has been tried. -/
theorem Accounts.markScanned (hchart : Accounts grammar depth text active chart chart)
    {pattern : Pattern} {start : Int} (htried : Tried pattern start chart) :
    Accounts grammar depth text active chart (chart.markScanned pattern.id start) where
  grown := hchart.grown.indexed.extends_markScanned pattern.id start
  swept id hknown position hnonneg hscanned hsize := by
    rw [(Grows.markScanned chart pattern.id start).text_eq] at hsize
    rw [outcome?_markScanned]
    rw [scannedUntil_markScanned] at hscanned
    split at hscanned
    next hfrontier =>
      obtain ⟨rfl, hfrontier⟩ := hfrontier
      by_cases hposition : position = start
      · rw [hposition] at hnonneg hsize ⊢
        exact htried hnonneg hsize
      · exact hchart.swept hknown position hnonneg (by omega) hsize
    next => exact hchart.swept hknown position hnonneg hscanned hsize
  rebuilt hnone hsome := by
    rw [outcome?_markScanned, hnone] at hsome
    cases hsome

/-- Trying a pattern in order from its frontier, or from before it, moves the frontier on. -/
theorem yieldsFrom_scan {attempt : Int → Action (Option Token)} {pattern : Pattern}
    (hattempt : ∀ position,
      Tries grammar depth text active pattern position (attempt position))
    (count : Nat) {position : Int} (hchart : Accounts grammar depth text active chart chart)
    (hfrontier : position ≤ chart.scannedUntil pattern.id) :
    YieldsFrom (Accounts grammar depth text active) chart (scan attempt pattern.id count position)
      (fun _ after => position + count ≤ after.scannedUntil pattern.id) fun _ => False := by
  induction count generalizing position chart with
  | zero => exact .pure hchart (by simpa using hfrontier)
  | succ count ih =>
      rw [scan]
      refine (hattempt position chart hchart).bind fun _ middle hmiddle hvalue => ?_
      have hsettled := Growth.refl_right hmiddle
      have hmark := hsettled.markScanned hvalue.2
      have hmoved := lt_scannedUntil_markScanned
        (hfrontier.trans (hmiddle.grows.scannedUntil_le pattern.id))
      obtain ⟨result, last, hrun, hlast, hresult⟩ := ih (Growth.refl_right hmark) hmoved
      refine ⟨result, last, (run_modify_bind middle).trans hrun, Growth.trans hmark hlast, ?_⟩
      cases result with
      | ok value =>
          push_cast
          change _ ≤ last.scannedUntil pattern.id at hresult ⊢
          omega
      | error fault => exact hresult

/-- A look behind at a pattern is told for good, since it has been tried at every position up to
there. -/
theorem steady_behindStep_ref {pattern : Pattern}
    (hfind : grammar.find? pattern.id = some pattern)
    {trial : Pattern → Int → Action (Option Token)}
    (htrial : ∀ position, Tries grammar depth text active pattern position (trial pattern position))
    (back : Node → Int → Action (Option Int)) (quantity : Quantity) (look : Look) (last : Int) :
    Steady grammar depth text active
      (behindStep grammar trial back (.ref pattern.id quantity look) last) := by
  simp only [behindStep, Grammar.get, hfind, lift_ok_bind]
  split
  next => exact .pure _
  next =>
    intro chart hchart
    obtain ⟨⟨⟩, after, hrun, hafter, hscanned⟩ := (yieldsFrom_scan htrial
      (last + 1 - chart.scannedUntil pattern.id).toNat hchart (le_refl _)).exists_ok
    refine ⟨.ok ((after.tail? last pattern.id).map Token.start), after, ?_, hafter, ?_⟩
    · refine (run_read_bind chart).trans ?_
      exact (run_bind_of_ok hrun).trans rfl
    · -- Later nothing is left to scan, and the slot of the last position is as it was.
      intro later hlater
      have hfrontier := hlater.scannedUntil_le pattern.id
      have hnone : (last + 1 - later.scannedUntil pattern.id).toNat = 0 := by omega
      have htail : later.tail? last pattern.id = after.tail? last pattern.id := by
        refine hlater.tail?_eq fun position hnonneg hlast hsize => ?_
        exact hafter.swept (by simp [hfind]) position hnonneg (by omega) hsize
      refine (run_read_bind later).trans ?_
      rw [hnone, scan, ← htail]
      rfl

/-- The patterns to which the node refers are in the grammar, and only trials of patterns of higher
rank are under way. -/
def Descends (grammar : Grammar) (rank : Int → Nat) (active : List Cell) (node : Node) : Prop :=
  ∀ id ∈ node.references, (grammar.find? id).isSome ∧ Above grammar rank active id

theorem Descends.child {alternatives : List (List Node)} {quantity : Quantity} {look : Look}
    (hgroup : Descends grammar rank active (.group alternatives quantity look))
    {sequence : List Node} (hsequence : sequence ∈ alternatives) {child : Node}
    (hchild : child ∈ sequence) : Descends grammar rank active child := fun id hid =>
  hgroup id (Node.mem_references_group.mpr ⟨sequence, hsequence, child, hchild, hid⟩)

/-- An outcome that is remembered inside the text is given from then on. -/
theorem replays_recalled {pattern : Pattern} {start : Int} {outcome : Option Token}
    (hcovers : chart.covers start = true)
    (houtcome : chart.outcome? start pattern.id = some outcome)
    (attempt : Action (Option Token)) :
    Replays (recalled pattern start attempt) outcome chart := by
  intro later hlater
  have hlater_covers : later.covers start = true := by
    rw [covers, size, hlater.text_eq]
    exact hcovers
  unfold recalled
  refine (run_read_bind later).trans ?_
  rw [hlater_covers, Bool.not_true, if_neg Bool.false_ne_true]
  refine (run_read_bind later).trans ?_
  rw [hlater.outcome_eq houtcome]
  rfl

/-- Outside the text nothing is matched, now or later. -/
theorem replays_recalled_outside {start : Int} (hcovers : chart.covers start = false)
    (pattern : Pattern) (attempt : Action (Option Token)) :
    Replays (recalled pattern start attempt) none chart := by
  intro later hlater
  have hlater_covers : later.covers start = false := by
    rw [covers, size, hlater.text_eq]
    exact hcovers
  unfold recalled
  refine (run_read_bind later).trans ?_
  rw [hlater_covers]
  rfl

/-- What is not remembered inside the text is tried. -/
theorem run_recalled_of_new {pattern : Pattern} {start : Int}
    (hcovers : chart.covers start = true) (hnew : chart.outcome? start pattern.id = none)
    (attempt : Action (Option Token)) :
    (recalled pattern start attempt).run chart = attempt.run chart := by
  unfold recalled
  refine (run_read_bind chart).trans ?_
  rw [hcovers, Bool.not_true, if_neg Bool.false_ne_true]
  refine (run_read_bind chart).trans ?_
  rw [hnew]

/-- What is remembered is given again, and what is not is tried. -/
theorem tries_recalled {pattern : Pattern} {start : Int} {attempt : Action (Option Token)}
    (hattempt : 0 ≤ start → start < text.size → ∀ chart,
      Accounts grammar depth text active chart chart → chart.outcome? start pattern.id = none →
        ∃ outcome after, attempt.run chart = (.ok outcome, after) ∧
          Accounts grammar depth text active chart after ∧
            after.outcome? start pattern.id = some outcome) :
    Tries grammar depth text active pattern start (recalled pattern start attempt) := by
  intro chart hchart
  have htext := hchart.grown.indexed.text_eq
  cases hcovers : chart.covers start with
  | false =>
      have houtside := replays_recalled_outside hcovers pattern attempt
      refine ⟨.ok none, chart, houtside.run_eq, hchart, houtside, fun hnonneg hsize => ?_⟩
      simp [covers, size, hnonneg, hsize] at hcovers
  | true =>
      cases houtcome : chart.outcome? start pattern.id with
      | some outcome =>
          have hreplays := replays_recalled hcovers houtcome attempt
          exact ⟨.ok outcome, chart, hreplays.run_eq, hchart, hreplays,
            fun _ _ => by simp [houtcome]⟩
      | none =>
          have hinside : 0 ≤ start ∧ start < text.size := by
            simpa [covers, size, htext] using hcovers
          obtain ⟨outcome, after, hrun, hafter, hremembered⟩ :=
            hattempt hinside.1 hinside.2 chart hchart houtcome
          refine ⟨.ok outcome, after, ?_, hafter, ?_, fun _ _ => by simp [hremembered]⟩
          · rw [run_recalled_of_new hcovers houtcome]
            exact hrun
          · refine replays_recalled ?_ hremembered attempt
            rw [covers, size, hafter.grows.text_eq]
            exact hcovers

/-- A trial that is not under way leaves an outcome for which the chart accounts. -/
theorem exists_attempt_accounts {pattern : Pattern}
    (hfind : grammar.find? pattern.id = some pattern) {room : Nat}
    (hroom : pattern.depth depth ≤ room + 1) {start : Int} (hnonneg : 0 ≤ start)
    (hsize : start < text.size) (hfree : (start, pattern.id) ∉ active)
    (hbuild : Steady grammar depth text ((start, pattern.id) :: active)
      (build (matchNode grammar room) pattern start))
    (hbuilt : Yields (Extends grammar (fun pattern => grammar.find? pattern.id = some pattern) text
      ((start, pattern.id) :: active)) (build (matchNode grammar room) pattern start)
        (Built grammar pattern start) fun _ => False)
    (hchart : Accounts grammar depth text active chart chart)
    (hnew : chart.outcome? start pattern.id = none) :
    ∃ outcome after, (attempt (matchNode grammar room) pattern start).run chart =
        (.ok outcome, after) ∧ Accounts grammar depth text active chart after ∧
          after.outcome? start pattern.id = some outcome := by
  have hindexed := hchart.grown.indexed
  have hentered := hindexed.enter hnew
  obtain ⟨outcome, middle, hrun, hmiddle, hreplays⟩ :=
    (hbuild _ (hentered.accounts_self hchart.swept)).exists_ok
  -- Both descriptions of what is built are of the same run.
  obtain ⟨other, final, hother, -, hfits⟩ := (hbuilt _ hentered.extends_self).exists_ok
  rw [hrun] at hother
  cases hother
  obtain ⟨after, hafter, hextends, hgrows, hscanned, hcells⟩ :=
    exists_attempt hindexed hfind hfree hrun hmiddle.grown hfits
  refine ⟨outcome, after, hafter, ⟨hextends, ?_, ?_⟩, by rw [hcells, if_pos ⟨rfl, rfl⟩]⟩
  · intro id hknown position hzero hfrontier hinside
    rw [hgrows.text_eq] at hinside
    have hsame : after.scannedUntil id = middle.scannedUntil id := by
      unfold scannedUntil
      rw [hscanned]
    rw [hsame] at hfrontier
    obtain ⟨found, hfound⟩ := Option.isSome_iff_exists.mp
      (hmiddle.swept hknown position hzero hfrontier hinside)
    rw [hgrows.outcome_eq hfound]
    rfl
  · intro position id found hnone hsome
    cases hearlier : middle.outcome? position id with
    | some remembered =>
        -- The outcome has been entered while the trial was under way.
        rw [hgrows.outcome_eq hearlier] at hsome
        rw [Option.some.inj hsome] at hearlier
        exact (hmiddle.rebuilt hnone hearlier).grow hgrows
    | none =>
        rw [hcells] at hsome
        split at hsome
        next hcell =>
          obtain ⟨rfl, rfl⟩ := hcell
          obtain rfl := Option.some.inj hsome
          have htext := hextends.indexed.text_eq
          exact ⟨hnonneg, by rwa [htext], pattern, room, hfind, hroom, hreplays.grow hgrows⟩
        next =>
          rw [hearlier] at hsome
          cases hsome

/-- With this room, whatever has no greater depth is matched for good: patterns of lower rank than
those under way, trees that refer to such patterns, and what is looked for behind. -/
structure SteadyWith (grammar : Grammar) (rank : Int → Nat) (depth : Int → Nat) (text : Array Char)
    (room : Nat) : Prop where
  pattern : ∀ active pattern, grammar.find? pattern.id = some pattern →
    pattern.depth depth ≤ room → Above grammar rank active pattern.id → ∀ start,
      Tries grammar depth text active pattern start (matchPattern grammar room pattern start)
  node : ∀ active node, Descends grammar rank active node → node.depth depth ≤ room → ∀ start,
    Steady grammar depth text active (matchNode grammar room node start)
  behind : ∀ active node, Descends grammar rank active node → node.depth depth ≤ room → ∀ last,
    Steady grammar depth text active (matchBehind grammar room node last)

namespace SteadyWith

variable {room : Nat} (hlayered : grammar.Layered rank) (hdepths : grammar.HasDepths depth)
  (hsteady : SteadyWith grammar rank depth text room)

theorem zero : SteadyWith grammar rank depth text 0 where
  pattern _ pattern _ hroom := absurd hroom (Nat.not_le.mpr (pattern.depth_pos depth))
  node _ node _ hroom := by cases node <;> exact absurd hroom (Nat.not_succ_le_zero _)
  behind _ node _ hroom := by cases node <;> exact absurd hroom (Nat.not_succ_le_zero _)

theorem depth_child_le {alternatives : List (List Node)} {quantity : Quantity} {look : Look}
    (hroom : (Node.group alternatives quantity look).depth depth ≤ room + 1)
    {sequence : List Node} (hsequence : sequence ∈ alternatives) {child : Node}
    (hchild : child ∈ sequence) : child.depth depth ≤ room := by
  have hlt := Node.depth_lt_depth_group depth hsequence hchild quantity look
  exact Nat.le_of_lt_succ (Nat.lt_of_lt_of_le hlt hroom)

include hlayered hdepths hsteady

/-- A reference leads to a pattern for which there is room. -/
theorem exists_tries {id : Int} {quantity : Quantity} {look : Look}
    (hdescends : Descends grammar rank active (.ref id quantity look))
    (hroom : (Node.ref id quantity look).depth depth ≤ room + 1) :
    ∃ pattern, pattern.id = id ∧ grammar.find? pattern.id = some pattern ∧ ∀ start,
      Tries grammar depth text active pattern start (matchPattern grammar room pattern start) := by
  obtain ⟨hknown, habove⟩ := hdescends id (by simp)
  obtain ⟨pattern, hfind⟩ := Option.isSome_iff_exists.mp hknown
  obtain rfl := hlayered.id_eq hfind
  have hbelow : depth pattern.id ≤ room := Nat.le_of_succ_le_succ hroom
  rw [hdepths hfind] at hbelow
  exact ⟨pattern, rfl, hfind, hsteady.pattern active pattern hfind hbelow habove⟩

theorem steady_behindStep {node : Node} (hdescends : Descends grammar rank active node)
    (hroom : node.depth depth ≤ room + 1) (last : Int) :
    Steady grammar depth text active
      (behindStep grammar (matchPattern grammar room) (matchBehind grammar room) node last) := by
  cases node with
  | ref id quantity look =>
      obtain ⟨pattern, rfl, hfind, htries⟩ := hsteady.exists_tries hlayered hdepths hdescends hroom
      exact steady_behindStep_ref hfind htries _ quantity look last
  | group alternatives quantity look =>
      unfold behindStep
      split
      next => exact .pure _
      next =>
        exact composable_steady.behindAlternatives (fun sequence hsequence child hmem =>
          hsteady.behind active child (hdescends.child hsequence hmem)
            (depth_child_le hroom hsequence hmem)) last

theorem steady_matchNode {node : Node} (hdescends : Descends grammar rank active node)
    (hroom : node.depth depth ≤ room + 1) (start : Int) :
    Steady grammar depth text active (matchNode grammar (room + 1) node start) := by
  rw [matchNode]
  refine steady_nodeStep (hsteady.steady_behindStep hlayered hdepths hdescends hroom)
    (fun position => ?_) start
  cases node with
  | ref id quantity look =>
      obtain ⟨pattern, rfl, hfind, htries⟩ := hsteady.exists_tries hlayered hdepths hdescends hroom
      simp only [onceStep, Grammar.get, hfind, lift_ok_bind]
      refine (htries position).steady.bind fun value => ?_
      cases value with
      | none => exact .pure _
      | some token => exact .pure _
  | group alternatives quantity look =>
      exact composable_steady.matchAlternatives (fun sequence hsequence child hmem =>
        hsteady.node active child (hdescends.child hsequence hmem)
          (depth_child_le hroom hsequence hmem)) position

omit hdepths in
theorem tries_matchPattern {pattern : Pattern} (hfind : grammar.find? pattern.id = some pattern)
    (hroom : pattern.depth depth ≤ room + 1) (habove : Above grammar rank active pattern.id)
    (start : Int) :
    Tries grammar depth text active pattern start
      (matchPattern grammar (room + 1) pattern start) := by
  have hbelow : ∀ id ∈ pattern.content.references, (grammar.find? id).isSome ∧
      Above grammar rank ((start, pattern.id) :: active) id := by
    intro id hid
    obtain ⟨hknown, hrank⟩ := hlayered.refers hfind id hid
    refine ⟨hknown, fun cell hcell hcell_known => ?_⟩
    rcases List.mem_cons.mp hcell with rfl | hcell
    · exact hrank
    · exact hrank.trans (habove cell hcell hcell_known)
  -- A trial of the pattern itself that was under way would be one of higher rank.
  have hfree : (start, pattern.id) ∉ active := fun hmem =>
    Nat.lt_irrefl _ (habove _ hmem (by simp [hfind]))
  rw [matchPattern]
  refine tries_recalled fun hnonneg hsize chart hchart hnew => ?_
  refine exists_attempt_accounts hfind hroom hnonneg hsize hfree ?_ ?_ hchart hnew
  · refine steady_build fun root hcontent => ?_
    rw [hcontent] at hbelow
    rw [Pattern.depth, hcontent] at hroom
    exact hsteady.node _ root hbelow (Nat.le_of_succ_le_succ hroom) start
  · refine yields_build hnonneg hsize fun root hcontent => ?_
    exact (yields_of_room _ hlayered.leads room).2.1 _ root
      (Grammar.Leads.resolves hlayered.leads hfind hcontent) start hsize.le

theorem succ : SteadyWith grammar rank depth text (room + 1) where
  pattern _ _ hfind hroom habove := hsteady.tries_matchPattern hlayered hfind hroom habove
  node _ _ hdescends hroom := hsteady.steady_matchNode hlayered hdepths hdescends hroom
  behind _ _ hdescends hroom last := by
    rw [matchBehind]
    exact hsteady.steady_behindStep hlayered hdepths hdescends hroom last

end SteadyWith

/-- Whatever is matched with room for its depth is matched for good. -/
theorem steadyWith (hlayered : grammar.Layered rank) (hdepths : grammar.HasDepths depth)
    (room : Nat) : SteadyWith grammar rank depth text room := by
  induction room with
  | zero => exact .zero
  | succ room ih => exact ih.succ hlayered hdepths

/-! ## Parsing -/

/-- Every pattern of the grammar has been tried everywhere in the text, and the chart accounts for
all that it remembers. -/
structure Settled (grammar : Grammar) (depth : Int → Nat) (text : Array Char)
    (chart : Chart) : Prop where
  indexed : Indexed text [] chart
  swept : Swept grammar chart
  tried : ∀ {id pattern}, grammar.find? id = some pattern → ∀ start, Tried pattern start chart
  rebuilt : ∀ {position id outcome}, chart.outcome? position id = some outcome →
    Rebuilt grammar depth position id outcome chart

/-- Trying patterns at a position leaves an outcome of each of them there. -/
theorem yields_tryAll (hlayered : grammar.Layered rank) (hdepths : grammar.HasDepths depth)
    {patterns : List Pattern}
    (hpatterns : ∀ pattern ∈ patterns, grammar.find? pattern.id = some pattern) {room : Nat}
    (hroom : ∀ pattern ∈ patterns, pattern.depth depth ≤ room) (position : Int) :
    Yields (Accounts grammar depth text []) (tryAll grammar room position patterns)
      (fun _ chart => ∀ pattern ∈ patterns, Tried pattern position chart) fun _ => False := by
  refine Yields.forM_each (fun pattern hpattern chart hchart => ?_)
    fun pattern before after hafter htried => htried.grow hafter.grows
  have htries : Tries grammar depth text [] pattern position
      (matchPattern grammar room pattern position) :=
    (steadyWith hlayered hdepths room).pattern [] pattern (hpatterns pattern hpattern)
      (hroom pattern hpattern) (fun cell hcell => absurd hcell List.not_mem_nil) position
  refine (htries chart hchart).bind fun _ middle hmiddle hvalue => ?_
  have hmark := (Growth.refl_right hmiddle).markScanned hvalue.2
  exact ⟨.ok ⟨⟩, _, rfl, hmark, hvalue.2.grow hmark.grows⟩

/-- Trying patterns at every position of the text leaves an outcome of each of them everywhere. -/
theorem yields_fill_tried (hlayered : grammar.Layered rank) (hdepths : grammar.HasDepths depth)
    {patterns : List Pattern}
    (hpatterns : ∀ pattern ∈ patterns, grammar.find? pattern.id = some pattern) {maxDepth : Int}
    (hroom : ∀ pattern ∈ patterns, pattern.depth depth ≤ roomFor maxDepth) :
    Yields (Accounts grammar depth text []) (fill grammar patterns maxDepth)
      (fun _ chart => ∀ pattern ∈ patterns, ∀ start, Tried pattern start chart)
      fun _ => False := by
  intro chart hchart
  refine .read ?_
  have hpositions : Yields (Accounts grammar depth text [])
      ((List.range chart.text.size).forM fun position =>
        tryAll grammar (roomFor maxDepth) position patterns)
      (fun _ chart' => ∀ position ∈ List.range chart.text.size, ∀ pattern ∈ patterns,
        Tried pattern (position : Int) chart') fun _ => False :=
    .forM_each (fun position _ => yields_tryAll hlayered hdepths hpatterns hroom position)
      fun position before after hafter htried pattern hpattern =>
        (htried pattern hpattern).grow hafter.grows
  refine (hpositions chart hchart).mono fun _ after hafter htried pattern hpattern start => ?_
  intro hnonneg hsize
  obtain ⟨place, rfl⟩ := Int.eq_ofNat_of_zero_le hnonneg
  rw [hafter.grows.text_eq] at hsize
  refine htried place (List.mem_range.mpr (by omega)) pattern hpattern hnonneg ?_
  rwa [hafter.grows.text_eq]

end Chart

namespace Registry

variable {registry : Registry}

/-- After a parse whose limit is not reached every registered pattern has been tried everywhere, and
the chart accounts for all that it remembers. -/
theorem exists_settled (hcoherent : registry.Coherent) (hclosed : registry.Closed)
    (hacyclic : registry.Acyclic) (text : String) {maxDepth : Int}
    (hunreached : Unreached (fun limit => registry.parse text limit) maxDepth) :
    ∃ chart, registry.parse text maxDepth = .ok chart ∧
      chart.Settled registry.grammar registry.depth text.toList.toArray := by
  have hlayered := layered hcoherent hclosed hacyclic
  have hdepths : registry.grammar.HasDepths registry.depth := hasDepths hcoherent hclosed hacyclic
  obtain ⟨greater, hgreater, hroom⟩ := exists_limit registry.patterns registry.depth maxDepth
  have hfind : ∀ pattern ∈ registry.patterns, registry.grammar.find? pattern.id = some pattern :=
    fun pattern hpattern => hcoherent.mem_patterns_iff.mp hpattern
  obtain ⟨⟨⟩, chart, hrun, hchart, htried⟩ := (Chart.yields_fill_tried hlayered hdepths hfind hroom
    _ ((Chart.indexed_ofText text).accounts_self (Chart.swept_ofText _ text))).exists_ok
  have hsame : registry.parse text greater = registry.parse text maxDepth :=
    hunreached greater hgreater
  refine ⟨chart, ?_, hchart.grown.indexed, hchart.swept, ?_, ?_⟩
  · rw [← hsame, parse, hrun]
  · intro id pattern hpattern
    have hid : pattern.id = id := hcoherent.id_eq hpattern
    refine htried pattern (hcoherent.mem_patterns_iff.mpr ?_)
    rw [hid]
    exact hpattern
  · intro position id outcome houtcome
    exact hchart.rebuilt (Chart.outcome?_ofText ..) houtcome

end Registry

end Motif
