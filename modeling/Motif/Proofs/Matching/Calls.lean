import Motif.Proofs.Matching.Keeping
import Motif.Proofs.Matching.Replaying

/-!
# Calls on one chart

Patterns and nodes may be tried on one chart one after another, at any position and down to any
depth, and each of these calls may fail. Whatever the calls are, the slots of the chart agree with
what it remembers, no outcome is ever changed or lost, and no trial stays under way; so a pattern
that has been matched is matched in the same way from then on.
-/

namespace Motif.Chart

open Evaluation (Fits)

/-- Something that is asked of a chart: to try a pattern or a node at a position, down to a
depth. -/
inductive Call where
  | onPattern (pattern : Pattern) (start maxDepth : Int)
  | onNode (node : Node) (start maxDepth : Int)

/-- What a call does. -/
def Call.action (grammar : Grammar) : Call → Action (Option Token)
  | .onPattern pattern start maxDepth => tryPattern grammar pattern start maxDepth
  | .onNode node start maxDepth => tryNode grammar node start maxDepth

/-- The chart that a call leaves behind, also if it fails. -/
def afterCall (grammar : Grammar) (chart : Chart) (call : Call) : Chart :=
  ((call.action grammar).run chart).2

/-- The chart that calls leave behind one after another. -/
def afterCalls (grammar : Grammar) (chart : Chart) (calls : List Call) : Chart :=
  calls.foldl (afterCall grammar) chart

/-- The charts of a text on which calls may be made: the one on which nothing has been tried, and
those that a parse gives. -/
inductive Opened (text : String) : Chart → Prop where
  | fresh : Opened text (ofText text)
  | parsed {registry : Registry} {maxDepth : Int} {chart : Chart}
    (hparse : registry.parse text maxDepth = .ok chart) : Opened text chart

/-- What a chart of a text holds in its slots and among its outcomes is consistent. -/
structure Consistent (text : Array Char) (chart : Chart) : Prop where
  text_eq : chart.text = text
  /-- The slot of a start has one token of each pattern. -/
  mem_heads_iff : ∀ position token, token ∈ slotAt chart.heads position ↔
    chart.head? position token.id = some token
  /-- A token in a slot belongs there, lies inside the text and is spelled like what it covers. -/
  of_head : ∀ position id token, chart.head? position id = some token →
    token.start = position ∧ token.id = id ∧ 0 ≤ position ∧ 1 ≤ token.length ∧
      token.stop ≤ text.size ∧
        token.text = String.ofList ((text.toList.drop position.toNat).take token.length.toNat)
  /-- The remembered tokens of positive length are those in the slots. -/
  outcome_iff_head : ∀ position id token,
    chart.outcome? position id = some (some token) ∧ 0 < token.length ↔
      chart.head? position id = some token
  /-- All other remembered tokens are empty. -/
  of_empty : ∀ position id token, chart.outcome? position id = some (some token) →
    ¬ 0 < token.length → token.length = 0 ∧ token.start = position

variable {grammar : Grammar} {text : Array Char} {active : List Cell} {chart : Chart}

/-! ## One call -/

section Slices

/-- A stretch inside the text is cut out of it from its start. -/
theorem between_eq_take_drop {start stop : Int} (hstart : 0 ≤ start) (hstop : start ≤ stop)
    (hsize : stop ≤ text.size) : Text.between text start stop =
      String.ofList ((text.toList.drop start.toNat).take (stop - start).toNat) := by
  have hplace (index : Int) (hnonneg : 0 ≤ index) (hsize : index ≤ text.size) :
      Text.place text.size index = index.toNat := by
    rw [Text.place, if_neg (by omega)]
    omega
  rw [Text.between, hplace start hstart (by omega), hplace stop (by omega) hsize,
    Array.toList_extract, List.extract_eq_take_drop]
  congr 2
  omega

end Slices

theorem Indexed.consistent (hchart : Indexed text active chart) (hquotes : Quoting text chart) :
    Consistent text chart where
  text_eq := hchart.text_eq
  mem_heads_iff position token := mem_slot_iff (hchart.nodup_heads position)
  of_head position id token hhead := by
    obtain ⟨houtcome, hlength⟩ := hchart.head?_eq_some_iff.mp hhead
    have hfits := hchart.fits houtcome
    obtain rfl := hfits.start_eq
    have hstop := hfits.stop_le
    refine ⟨rfl, hfits.id_eq, hfits.start_nonneg, hlength, hstop, ?_⟩
    have hspan : token.stop - token.start = token.length := by
      unfold Token.stop
      omega
    rw [hquotes.quotes houtcome,
      between_eq_take_drop hfits.start_nonneg (by unfold Token.stop; omega) hstop, hspan]
  outcome_iff_head position id token := hchart.head?_eq_some_iff.symm
  of_empty position id token houtcome hlength := by
    have hfits := hchart.fits houtcome
    have hnonneg := hfits.length_nonneg
    exact ⟨by omega, hfits.start_eq⟩

/-- Every grammar leads on among arbitrary patterns if every fault is allowed. -/
theorem leads_anywhere (grammar : Grammar) : grammar.Leads (fun _ => True) fun _ => True :=
  ⟨fun _ => trivial, fun _ _ _ _ => trivial⟩

/-- Whatever is matched, from whatever position, only adds to a chart. -/
theorem respects_extends (grammar : Grammar) (text : Array Char) (active : List Cell)
    (room : Nat) :
    (∀ pattern start, Respects (Extends grammar (fun _ => True) text active)
      (matchPattern grammar room pattern start)) ∧
    (∀ node start, Respects (Extends grammar (fun _ => True) text active)
      (matchNode grammar room node start)) ∧
    (∀ node last, Respects (Extends grammar (fun _ => True) text active)
      (matchBehind grammar room node last)) := by
  have htrial (room : Nat) (pattern : Pattern) (start : Int) :
      Respects (Extends grammar (fun _ => True) text active)
        (matchPattern grammar (room + 1) pattern start) := by
    obtain ⟨hpattern, -⟩ := yields_of_room text (leads_anywhere grammar) (room + 1)
    intro chart hchart
    exact (hpattern active pattern trivial start chart hchart).mono fun _ _ _ _ => trivial
  obtain ⟨hpattern, hnodes⟩ := respects_of_room (fun id position _ hchart =>
    Indexed.extends_markScanned (Extends.indexed hchart) id position) (fun _ => True)
    (fun _ _ _ => trivial) (fun room _ pattern _ => htrial room pattern) room
  exact ⟨fun pattern => hpattern pattern trivial, hnodes⟩

section Calls

variable {grows : Chart → Chart → Prop} [Growth grows]
  (hroom : ∀ room,
    (∀ pattern start, Respects grows (matchPattern grammar room pattern start)) ∧
    (∀ node start, Respects grows (matchNode grammar room node start)) ∧
    (∀ node last, Respects grows (matchBehind grammar room node last)))
include hroom

/-- A call respects what all matching respects. -/
theorem Call.respects (call : Call) : Respects grows (call.action grammar) := by
  cases call with
  | onPattern pattern start maxDepth => exact (hroom (roomFor maxDepth)).1 pattern start
  | onNode node start maxDepth =>
      have hnode := (hroom (roomFor maxDepth)).2.1 node start
      refine composable_respects.bind hnode fun value => ?_
      cases value with
      | none => exact composable_respects.pure _
      | some reach => exact .read fun _ => composable_respects.pure _

theorem relates_afterCall (hchart : grows chart chart) (call : Call) :
    grows chart (afterCall grammar chart call) := by
  obtain ⟨result, after, hrun, hafter, -⟩ := Call.respects hroom call chart hchart
  rw [afterCall, hrun]
  exact hafter

/-- Calls one after another respect what each of them does. -/
theorem relates_afterCalls (hchart : grows chart chart) (calls : List Call) :
    grows chart (afterCalls grammar chart calls) := by
  induction calls generalizing chart with
  | nil => exact hchart
  | cons call rest ih =>
      have hcall := relates_afterCall hroom hchart call
      exact Growth.trans hcall (ih (Growth.refl_right hcall))

end Calls

/-- A chart without trials under way whose slots and outcomes are consistent. -/
structure Idle (text : Array Char) (chart : Chart) : Prop where
  indexed : Indexed text [] chart
  quoting : Quoting text chart

theorem Idle.grows_afterCalls (hchart : Idle text chart) (grammar : Grammar) (calls : List Call) :
    Grows chart (afterCalls grammar chart calls) :=
  (relates_afterCalls (respects_extends grammar text []) hchart.indexed.extends_self calls).grows

/-- Calls leave nothing under way and everything consistent. -/
theorem Idle.idle_afterCalls (hchart : Idle text chart) (grammar : Grammar) (calls : List Call) :
    Idle text (afterCalls grammar chart calls) where
  indexed := (relates_afterCalls (respects_extends grammar text [])
    hchart.indexed.extends_self calls).indexed
  quoting := by
    have hleaves : Leaves (Quoting text) chart chart := hchart.quoting
    exact relates_afterCalls (respects_quoting grammar text) hleaves calls

/-- A parse respects what all matching respects. -/
theorem relates_parse {grows : Chart → Chart → Prop} [Growth grows] {registry : Registry}
    (hmark : ∀ id position chart, grows chart chart →
      grows chart (chart.markScanned id position))
    (htrial : ∀ room pattern position,
      Respects grows (matchPattern registry.grammar room pattern position))
    {text : String} (hstart : grows (ofText text) (ofText text)) {maxDepth : Int}
    (hparse : registry.parse text maxDepth = .ok chart) : grows (ofText text) chart := by
  obtain ⟨result, after, hrun, hafter, -⟩ :=
    respects_fill hmark htrial registry.patterns maxDepth (ofText text) hstart
  unfold Registry.parse at hparse
  rw [hrun] at hparse
  cases result with
  | ok value =>
      cases hparse
      exact hafter
  | error fault => cases hparse

theorem Opened.idle {text : String} (hchart : Opened text chart) :
    Idle text.toList.toArray chart := by
  cases hchart with
  | fresh => exact ⟨indexed_ofText text, quoting_ofText text⟩
  | parsed hparse =>
      refine ⟨?_, ?_⟩
      · exact (relates_parse (fun id position _ hchart =>
          hchart.indexed.extends_markScanned id position)
          (fun room => (respects_extends _ _ [] room).1) (indexed_ofText text).extends_self
          hparse).indexed
      · have hstart : Leaves (Quoting text.toList.toArray) (ofText text) (ofText text) :=
          quoting_ofText text
        exact relates_parse leaves_markScanned (fun room => (respects_quoting _ _ room).1) hstart
          hparse

/-! ## The same call again -/

/-- Matching a pattern first looks at what is remembered, with every room. -/
theorem exists_matchPattern_eq_recalled (grammar : Grammar) (room : Nat) (pattern : Pattern)
    (start : Int) :
    ∃ attempt, matchPattern grammar room pattern start = recalled pattern start attempt := by
  cases room with
  | zero => exact ⟨_, by rw [matchPattern]⟩
  | succ room => exact ⟨_, by rw [matchPattern]⟩

/-- A trial that was not under way and has ended without a fault is remembered. -/
theorem outcome?_of_run_attempt (hchart : Indexed text active chart) {pattern : Pattern}
    {start : Int} (hsize : start < text.size) (hnonneg : 0 ≤ start)
    (hnew : chart.outcome? start pattern.id = none) (hfree : (start, pattern.id) ∉ active)
    {room : Nat} {value : Option Token} {after : Chart}
    (hrun : (attempt (matchNode grammar room) pattern start).run chart = (.ok value, after)) :
    after.outcome? start pattern.id = some value := by
  obtain ⟨-, hnode, -⟩ := yields_of_room text (leads_anywhere grammar) room
  have hbuild : Yields (Extends grammar (fun _ => True) text ((start, pattern.id) :: active))
      (build (matchNode grammar room) pattern start) (Built grammar pattern start) fun _ => True :=
    yields_build hnonneg hsize fun root _ => hnode _ root (fun _ _ _ => trivial) start hsize.le
  obtain ⟨result, middle, hbuilt, hmiddle, hresult⟩ :=
    hbuild _ (hchart.enter hnew).extends_self
  cases result with
  | ok outcome =>
      obtain ⟨last, hlast, -, -, -, hcells⟩ :=
        exists_attempt hchart trivial hfree hbuilt hmiddle hresult
      rw [hrun] at hlast
      cases hlast
      rw [hcells, if_pos ⟨rfl, rfl⟩]
  | error fault =>
      -- A fault below is a fault of the trial.
      rw [← hchart.active_eq] at hfree
      have hfault : (attempt (matchNode grammar room) pattern start).run chart =
          (.error fault, middle.leave start pattern.id) := by
        unfold attempt
        exact (run_bind_of_ok (run_enter hfree)).trans
          (run_bind_of_error (run_guarded hbuilt start pattern.id))
      rw [hrun] at hfault
      cases hfault

/-- A pattern that has been matched down to some depth is matched in the same way from then on,
down to whatever depth. -/
theorem Idle.replays (hchart : Idle text chart) {pattern : Pattern} {start maxDepth : Int}
    (hdepth : 0 ≤ maxDepth) {value : Option Token} {after : Chart}
    (hrun : (tryPattern grammar pattern start maxDepth).run chart = (.ok value, after))
    (other : Int) : Replays (tryPattern grammar pattern start other) value after := by
  obtain ⟨again, hagain⟩ :=
    exists_matchPattern_eq_recalled grammar (roomFor other) pattern start
  obtain ⟨room, hroom⟩ := Nat.exists_eq_succ_of_ne_zero (show roomFor maxDepth ≠ 0 by
    unfold roomFor
    omega)
  have hfirst : matchPattern grammar (roomFor maxDepth) pattern start =
      recalled pattern start (attempt (matchNode grammar room) pattern start) := by
    rw [hroom, matchPattern]
  rw [tryPattern, hfirst] at hrun
  rw [tryPattern, hagain]
  cases hcovers : chart.covers start with
  | false =>
      have houtside := replays_recalled_outside hcovers pattern
      rw [(houtside _).run_eq] at hrun
      cases hrun
      exact houtside again
  | true =>
      cases houtcome : chart.outcome? start pattern.id with
      | some outcome =>
          have hremembered := replays_recalled hcovers houtcome
          rw [(hremembered _).run_eq] at hrun
          cases hrun
          exact hremembered again
      | none =>
          have hinside : 0 ≤ start ∧ start < text.size := by
            simpa [covers, size, hchart.indexed.text_eq] using hcovers
          have hgrows := hchart.grows_afterCalls grammar [.onPattern pattern start maxDepth]
          rw [afterCalls, List.foldl_cons, List.foldl_nil, afterCall, Call.action, tryPattern,
            hfirst, hrun] at hgrows
          rw [run_recalled_of_new hcovers houtcome] at hrun
          have hremembered := outcome?_of_run_attempt hchart.indexed hinside.2 hinside.1 houtcome
            List.not_mem_nil hrun
          refine replays_recalled ?_ hremembered again
          rw [covers, size, hgrows.text_eq]
          exact hcovers

/-- Without any depth a pattern is matched only by what is remembered of it. -/
theorem run_tryPattern_of_neg {pattern : Pattern} {start maxDepth : Int} (hdepth : maxDepth < 0)
    {value : Option Token} {after : Chart}
    (hrun : (tryPattern grammar pattern start maxDepth).run chart = (.ok value, after)) :
    after = chart := by
  have hroom : roomFor maxDepth = 0 := by
    unfold roomFor
    omega
  rw [tryPattern, hroom, matchPattern] at hrun
  cases hcovers : chart.covers start with
  | false =>
      rw [(replays_recalled_outside hcovers pattern _).run_eq] at hrun
      cases hrun
      rfl
  | true =>
      cases houtcome : chart.outcome? start pattern.id with
      | some outcome =>
          rw [(replays_recalled hcovers houtcome _).run_eq] at hrun
          cases hrun
          rfl
      | none =>
          rw [run_recalled_of_new hcovers houtcome] at hrun
          cases hrun
          rfl

/-- Whatever calls have been made on a chart, the chart is consistent; a further call leaves it
consistent, with the same trials under way, and changes no outcome, and no later call does. So a
pattern that has been matched is matched in the same way by the same call, which changes nothing:
at once, and unless there was no depth at all, also after any later calls. -/
theorem Opened.calls_consistent {text : String} (hchart : Opened text chart) (registry : Registry)
    (calls : List Call) (call : Call) :
    let before := afterCalls registry.grammar chart calls
    let after := afterCall registry.grammar before call
    Consistent text.toList.toArray before ∧ Consistent text.toList.toArray after ∧
    after.active = before.active ∧
    (∀ later position id outcome, before.outcome? position id = some outcome →
      (afterCalls registry.grammar after later).outcome? position id = some outcome) ∧
    ∀ pattern start maxDepth value, call = .onPattern pattern start maxDepth →
      ((call.action registry.grammar).run before).1 = .ok value →
        (call.action registry.grammar).run after = (.ok value, after) ∧
        (0 ≤ maxDepth → ∀ later,
          (call.action registry.grammar).run (afterCalls registry.grammar after later) =
            (.ok value, afterCalls registry.grammar after later)) := by
  intro before after
  have hbefore : Idle text.toList.toArray before :=
    hchart.idle.idle_afterCalls registry.grammar calls
  have hafter : Idle text.toList.toArray after := hbefore.idle_afterCalls registry.grammar [call]
  refine ⟨hbefore.indexed.consistent hbefore.quoting, hafter.indexed.consistent hafter.quoting,
    hafter.indexed.active_eq.trans hbefore.indexed.active_eq.symm, ?_, ?_⟩
  · intro later position id outcome houtcome
    exact (hbefore.grows_afterCalls registry.grammar (call :: later)).outcome_eq houtcome
  · rintro pattern start maxDepth value rfl hvalue
    have hrun : (tryPattern registry.grammar pattern start maxDepth).run before =
        (.ok value, after) := Prod.ext hvalue rfl
    refine ⟨?_, fun hdepth later => ?_⟩
    · by_cases hdepth : 0 ≤ maxDepth
      · exact (hbefore.replays hdepth hrun maxDepth).run_eq
      · have hsame := run_tryPattern_of_neg (Int.not_le.mp hdepth) hrun
        rw [hsame] at hrun ⊢
        exact hrun
    · exact hbefore.replays hdepth hrun maxDepth _ (hafter.grows_afterCalls registry.grammar later)

/-- A pattern that refers to itself and, where that fails, to a letter and to a pattern that is not
there. -/
def astray : Registry where
  ledger := #[{ kind := .literal, content := .literal "a", id := 0 },
    { kind := .derived
      content := .tree (.plainGroup [[.plainRef 1], [.plainRef 0, .plainRef 7]])
      id := 1 }]
  entries := [(0, 0), (1, 1)]
  nextId := 2

/-- A call that fails since a pattern is missing leaves the chart consistent and nothing under
way. -/
theorem astray_calls_consistent :
    let failed := afterCall astray.grammar (ofText "aa") (.onNode (.plainRef 1) 0 256)
    Opened "aa" (ofText "aa") ∧ Consistent "aa".toList.toArray failed ∧ failed.active = [] := by
  intro failed
  obtain ⟨-, hconsistent, hactive, -⟩ :=
    Opened.fresh.calls_consistent astray [] (.onNode (.plainRef 1) 0 256)
  exact ⟨.fresh, hconsistent, hactive⟩

end Motif.Chart
