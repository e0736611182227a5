import Motif.Proofs.Matching.Trials

/-!
# What all matching respects

A relation between charts that holds along the trials of patterns and the moves of frontiers holds
along all matching: from any position, also outside the text, with any room, and whether it ends
with a match, without one or with a fault. One such relation says that every token that the later
chart remembers is spelled like the stretch of the text that it covers.
-/

namespace Motif.Chart

variable {α β : Type} {grows : Chart → Chart → Prop}

/-- However the operation ends, the chart that it leaves behind is related to the one before. -/
abbrev Respects (grows : Chart → Chart → Prop) (action : Action α) : Prop :=
  Yields grows action (fun _ _ => True) fun _ => True

theorem composable_respects [Growth grows] : Composable (Respects grows) :=
  composable_yields fun _ => True

theorem Respects.read {next : Chart → Action α} (hnext : ∀ chart, Respects grows (next chart)) :
    Respects grows (getThe Chart >>= next) :=
  fun chart hchart => .read (hnext chart chart hchart)

/-- The pattern of an id is looked up before something is done with it. -/
theorem respects_get_bind [Growth grows] {grammar : Grammar} {id : Int} {next : Pattern → Action α}
    (hnext : ∀ pattern, grammar.find? id = some pattern → Respects grows (next pattern)) :
    Respects grows ((liftM (grammar.get id) : Action Pattern) >>= next) := by
  intro chart hchart
  have hget : YieldsFrom grows chart (liftM (grammar.get id) : Action Pattern)
      (fun pattern _ => grammar.find? id = some pattern) fun _ => True := by
    refine .lift hchart ?_
    unfold Grammar.get
    cases grammar.find? id <;> trivial
  exact hget.bind fun pattern after hafter hfind =>
    hnext pattern hfind after (Growth.refl_right hafter)

/-! ## Nodes -/

section Nodes

variable [Growth grows] {grammar : Grammar} {node : Node → Int → Action (Option Reach)}
  {back : Node → Int → Action (Option Int)} {trial : Pattern → Int → Action (Option Token)}

theorem respects_nodeStep {target : Node} (hback : ∀ last, Respects grows (back target last))
    (hnode : ∀ position, Respects grows (node target position)) (start : Int) :
    Respects grows (nodeStep back node target start) := by
  unfold nodeStep
  split
  next => exact composable_respects.bind (hback (start - 1)) fun _ => composable_respects.pure _
  next =>
    refine .read fun chart => ?_
    have hrun := composable_respects.repeatMatch hnode (triesOf target.quantity chart.text.size)
    exact composable_respects.bind (hrun start) fun _ => composable_respects.pure _

theorem respects_onceStep (htrial : ∀ id pattern, grammar.find? id = some pattern →
      ∀ position, Respects grows (trial pattern position))
    (hnode : ∀ child position, Respects grows (node child position)) (target : Node)
    (position : Int) : Respects grows (onceStep grammar trial node target position) := by
  cases target with
  | ref id quantity look =>
      refine respects_get_bind fun pattern hfind => ?_
      refine composable_respects.bind (htrial id pattern hfind position) fun value => ?_
      cases value <;> exact composable_respects.pure _
  | group alternatives quantity look =>
      exact composable_respects.matchAlternatives (fun _ _ child _ => hnode child) position

omit [Growth grows] in
theorem respects_recalled {attempt : Action (Option Token)} {start : Int}
    (hattempt : 0 ≤ start → Respects grows attempt) (pattern : Pattern) :
    Respects grows (recalled pattern start attempt) := by
  refine .read fun chart state hstate => ?_
  split
  next => exact .pure hstate trivial
  next hcovers =>
    have hstart : 0 ≤ start := by
      simp only [covers, Bool.not_eq_true', Bool.not_eq_false, Bool.and_eq_true,
        decide_eq_true_eq] at hcovers
      exact hcovers.1
    refine .read ?_
    cases state.outcome? start pattern.id with
    | none => exact hattempt hstart state hstate
    | some outcome => exact .pure hstate trivial

variable (hmark : ∀ id position chart, grows chart chart →
  grows chart (chart.markScanned id position))
include hmark

omit [Growth grows] in
theorem respects_markScanned (id position : Int) :
    Respects grows (modify fun chart => chart.markScanned id position : Action PUnit) :=
  fun chart hchart => ⟨.ok ⟨⟩, _, rfl, hmark id position chart hchart, trivial⟩

theorem respects_scan {attempt : Int → Action (Option Token)}
    (hattempt : ∀ position, Respects grows (attempt position)) (id : Int) (count : Nat)
    (position : Int) : Respects grows (scan attempt id count position) := by
  induction count generalizing position with
  | zero => exact composable_respects.pure _
  | succ count ih =>
      refine composable_respects.bind (hattempt position) fun _ => ?_
      refine composable_respects.bind (respects_markScanned hmark id position) fun _ => ?_
      exact ih (position + 1)

theorem respects_behindStep (htrial : ∀ id pattern, grammar.find? id = some pattern →
      ∀ position, Respects grows (trial pattern position))
    (hback : ∀ child last, Respects grows (back child last)) (target : Node) (last : Int) :
    Respects grows (behindStep grammar trial back target last) := by
  unfold behindStep
  split
  next => exact composable_respects.pure _
  next =>
    cases target with
    | ref id quantity look =>
        refine respects_get_bind fun pattern hfind => ?_
        refine .read fun chart => ?_
        refine composable_respects.bind (respects_scan hmark (htrial id pattern hfind) _ _ _)
          fun _ => ?_
        exact .read fun _ => composable_respects.pure _
    | group alternatives quantity look =>
        exact composable_respects.behindAlternatives (fun _ _ child _ => hback child) last

theorem respects_tryAll {room : Nat}
    (htrial : ∀ pattern position, Respects grows (matchPattern grammar room pattern position))
    (position : Int) (patterns : List Pattern) :
    Respects grows (tryAll grammar room position patterns) :=
  Yields.forM fun pattern _ => composable_respects.bind (htrial pattern position) fun _ =>
    respects_markScanned hmark pattern.id position

theorem respects_fill
    (htrial : ∀ room pattern position,
      Respects grows (matchPattern grammar room pattern position))
    (patterns : List Pattern) (maxDepth : Int) :
    Respects grows (fill grammar patterns maxDepth) :=
  .read fun _ => .forM fun position _ =>
    respects_tryAll hmark (htrial (roomFor maxDepth)) position patterns

/-- All matching respects a relation that the trials of some patterns, among them all those of the
grammar, respect as soon as the matching of nodes with less room does. -/
theorem respects_of_room (known : Pattern → Prop)
    (hknown : ∀ id pattern, grammar.find? id = some pattern → known pattern)
    (htrial : ∀ room, (∀ node start, Respects grows (matchNode grammar room node start)) →
      ∀ pattern, known pattern → ∀ start,
        Respects grows (matchPattern grammar (room + 1) pattern start))
    (room : Nat) :
    (∀ pattern, known pattern → ∀ start, Respects grows (matchPattern grammar room pattern start)) ∧
    (∀ node start, Respects grows (matchNode grammar room node start)) ∧
    (∀ node last, Respects grows (matchBehind grammar room node last)) := by
  induction room with
  | zero =>
      refine ⟨?_, fun _ _ => composable_respects.pure _, fun _ _ => composable_respects.pure _⟩
      intro pattern _ start
      rw [matchPattern]
      exact respects_recalled (fun _ => composable_respects.pure none) pattern
  | succ room ih =>
      obtain ⟨ihPattern, ihNode, ihBehind⟩ := ih
      have hfound (id : Int) (pattern : Pattern) (hfind : grammar.find? id = some pattern) :=
        ihPattern pattern (hknown id pattern hfind)
      have hbehind (node : Node) (last : Int) : Respects grows
          (behindStep grammar (matchPattern grammar room) (matchBehind grammar room) node last) :=
        respects_behindStep hmark hfound ihBehind node last
      refine ⟨htrial room ihNode, ?_, ?_⟩
      · intro node start
        rw [matchNode]
        exact respects_nodeStep (hbehind node) (respects_onceStep hfound ihNode node) start
      · intro node last
        rw [matchBehind]
        exact hbehind node last

end Nodes

/-! ## Trials -/

section Trials

variable [Growth grows]
  (hsame : ∀ before after : Chart, grows before before → after.text = before.text →
    after.memo = before.memo → grows before after)
include hsame

/-- Only the last of the three changes that a token makes concerns the outcomes. -/
theorem respects_add {token : Token} (htoken : ∀ chart, grows chart chart →
      grows chart (chart.withOutcome token.start token.id token)) :
    Respects grows (add token) := by
  have hslots (change : Chart → Chart) (hchange : ∀ chart, (change chart).text = chart.text ∧
      (change chart).memo = chart.memo) : Respects grows (modify change : Action PUnit) :=
    fun chart hchart =>
      ⟨.ok ⟨⟩, _, rfl, hsame chart _ hchart (hchange chart).1 (hchange chart).2, trivial⟩
  refine .read fun before => ?_
  dsimp only
  cases slot? before.text.size token.start with
  | none => exact fun chart hchart => ⟨_, chart, rfl, hchart, trivial⟩
  | some head =>
      refine composable_respects.bind (hslots _ fun _ => ⟨rfl, rfl⟩) fun _ => ?_
      cases slot? before.text.size token.last with
      | none => exact fun chart hchart => ⟨_, chart, rfl, hchart, trivial⟩
      | some tail =>
          refine composable_respects.bind (hslots _ fun _ => ⟨rfl, rfl⟩) fun _ => ?_
          exact fun chart hchart => ⟨.ok ⟨⟩, _, rfl, htoken chart hchart, trivial⟩

theorem respects_remember {position id : Int} {outcome : Option Token}
    (hplace : ∀ found, outcome = some found → found.start = position ∧ found.id = id)
    (houtcome : ∀ chart, grows chart chart → grows chart (chart.withOutcome position id outcome)) :
    Respects grows (remember position id outcome) := by
  have hinsert : Respects grows
      (modify fun chart => chart.withOutcome position id outcome : Action Unit) :=
    fun chart hchart => ⟨.ok ⟨⟩, _, rfl, houtcome chart hchart, trivial⟩
  cases outcome with
  | none => exact hinsert
  | some token =>
      by_cases hlength : 0 < token.length
      · rw [remember, if_pos hlength]
        obtain ⟨rfl, rfl⟩ := hplace token rfl
        exact respects_add hsame houtcome
      · rw [remember, if_neg hlength]
        exact hinsert

/-- A trial respects a relation if building the token does and what is remembered may be. -/
theorem respects_attempt {node : Node → Int → Action (Option Reach)} {pattern : Pattern}
    {start : Int} {sound : Option Token → Prop}
    (hbuild : Yields grows (build node pattern start) (fun value _ => sound value) fun _ => True)
    (hplace : ∀ found, sound (some found) → found.start = start ∧ found.id = pattern.id)
    (houtcome : ∀ chart outcome, sound outcome → grows chart chart →
      grows chart (chart.withOutcome start pattern.id outcome)) :
    Respects grows (attempt node pattern start) := by
  have henter : Respects grows (enter start pattern.id) := by
    refine .read fun before => ?_
    split
    next => exact composable_respects.pure _
    next => exact fun chart hchart =>
      ⟨.ok true, _, rfl, hsame chart _ hchart rfl rfl, trivial⟩
  refine composable_respects.bind henter fun entered => ?_
  split
  next => exact composable_respects.pure _
  next =>
    intro chart hchart
    have hguarded : YieldsFrom grows chart (guarded start pattern.id (build node pattern start))
        (fun value _ => sound value) fun _ => True := by
      obtain ⟨result, middle, hrun, hmiddle, hresult⟩ := hbuild chart hchart
      have hleave : grows middle (middle.leave start pattern.id) :=
        hsame middle _ (Growth.refl_right hmiddle) rfl rfl
      exact ⟨result, _, run_guarded hrun start pattern.id, Growth.trans hmiddle hleave, hresult⟩
    refine hguarded.bind fun outcome middle hmiddle hsound => ?_
    have hremember : Respects grows (remember start pattern.id outcome) :=
      respects_remember hsame (fun found hfound => hplace found (hfound ▸ hsound))
        fun chart => houtcome chart outcome hsound
    exact composable_respects.bind hremember (fun _ => composable_respects.pure _) middle
      (Growth.refl_right hmiddle)

end Trials

/-! ## Spelling -/

/-- The later of two charts has the property. -/
def Leaves (invariant : Chart → Prop) (_ after : Chart) : Prop :=
  invariant after

instance {invariant : Chart → Prop} : Growth (Leaves invariant) where
  trans _ hsecond := hsecond
  refl_right hafter := hafter

/-- The token is spelled like the stretch of the text that it covers. -/
def Quotes (text : Array Char) (token : Token) : Prop :=
  token.text = Text.between text token.start token.stop

/-- A chart of the text in which all remembered tokens are spelled like what they cover. -/
structure Quoting (text : Array Char) (chart : Chart) : Prop where
  text_eq : chart.text = text
  quotes : ∀ {position id found}, chart.outcome? position id = some (some found) →
    Quotes text found

variable {text : Array Char} {chart : Chart}

theorem quoting_ofText (text : String) : Quoting text.toList.toArray (ofText text) :=
  ⟨rfl, fun houtcome => by simp [outcome?, ofText] at houtcome⟩

/-- Only the text and the outcomes matter. -/
theorem Quoting.congr {after : Chart} (hchart : Quoting text chart)
    (htext : after.text = chart.text) (hmemo : after.memo = chart.memo) : Quoting text after where
  text_eq := htext.trans hchart.text_eq
  quotes houtcome := by
    rw [outcome?, hmemo] at houtcome
    exact hchart.quotes houtcome

theorem Quoting.markScanned (hchart : Quoting text chart) (id position : Int) :
    Quoting text (chart.markScanned id position) where
  text_eq := (Grows.markScanned chart id position).text_eq.trans hchart.text_eq
  quotes houtcome := by
    rw [outcome?_markScanned] at houtcome
    exact hchart.quotes houtcome

theorem leaves_markScanned (id position : Int) (chart : Chart)
    (hchart : Leaves (Quoting text) chart chart) :
    Leaves (Quoting text) chart (chart.markScanned id position) :=
  Quoting.markScanned hchart id position

/-- One more outcome has to be spelled like what it covers. -/
theorem Quoting.withOutcome (hchart : Quoting text chart) (position id : Int)
    {outcome : Option Token} (houtcome : ∀ found, outcome = some found → Quotes text found) :
    Quoting text (chart.withOutcome position id outcome) where
  text_eq := hchart.text_eq
  quotes hfound := by
    rw [outcome?_withOutcome] at hfound
    split at hfound
    next => exact houtcome _ (Option.some.inj hfound)
    next => exact hchart.quotes hfound

/-- The characters from one place of a text on are those between that place and the next. -/
theorem between_of_prefix {word : List Char} {start : Int} (hstart : 0 ≤ start)
    (hword : word <+: text.toList.drop start.toNat) :
    Text.between text start (start + word.length) = String.ofList word := by
  have hlength : word.length ≤ text.size - start.toNat := by simpa using hword.length_le
  have hplace (index : Int) (hnonneg : 0 ≤ index) :
      Text.place text.size index = min index.toNat text.size := by
    rw [Text.place, if_neg (by omega)]
  rw [Text.between, hplace start hstart, hplace _ (by omega)]
  rw [Array.toList_extract, List.extract_eq_take_drop]
  by_cases hinside : start ≤ text.size
  · have hfirst : min start.toNat text.size = start.toNat := by omega
    have hcount : min (start + word.length).toNat text.size - start.toNat = word.length := by omega
    rw [hfirst, hcount, ← List.prefix_iff_eq_take.mp hword]
  · -- Beyond the end there is nothing, and so the word is empty.
    obtain rfl : word = [] := List.length_eq_zero_iff.mp (by omega)
    simp

/-- What is built for a pattern belongs to it, starts where it should and is spelled like what it
covers. -/
theorem yields_build_quotes {node : Node → Int → Action (Option Reach)} {pattern : Pattern}
    {start : Int} (hstart : 0 ≤ start)
    (hnode : ∀ root, Respects (Leaves (Quoting text)) (node root start)) :
    Yields (Leaves (Quoting text)) (build node pattern start)
      (fun value _ => ∀ found, value = some found →
        (found.start = start ∧ found.id = pattern.id) ∧ Quotes text found) fun _ => True := by
  intro chart hchart
  unfold build
  cases pattern.content with
  | literal word =>
      refine .read (.pure hchart ?_)
      intro found hfound
      rw [spells_eq, Quoting.text_eq hchart] at hfound
      split at hfound
      next hspelled =>
        cases hfound
        have hword := List.isPrefixOf_iff_prefix.mp (Bool.and_eq_true_iff.mp hspelled).2
        have hbetween := between_of_prefix hstart hword
        rw [String.length_toList, String.ofList_toList] at hbetween
        exact ⟨⟨rfl, rfl⟩, hbetween.symm⟩
      next => cases hfound
  | tree root =>
      refine (hnode root chart hchart).bind fun value after hafter _ => ?_
      cases value with
      | none => exact .pure hafter (by simp)
      | some reach =>
          refine .read (.pure hafter ?_)
          rintro found ⟨⟩
          have hstop : start + (reach.stop - start) = reach.stop := by omega
          refine ⟨⟨rfl, rfl⟩, ?_⟩
          simp only [Quotes, Token.stop, hstop, Quoting.text_eq hafter]

theorem respects_attempt_quoting {node : Node → Int → Action (Option Reach)} {pattern : Pattern}
    {start : Int} (hstart : 0 ≤ start)
    (hnode : ∀ root, Respects (Leaves (Quoting text)) (node root start)) :
    Respects (Leaves (Quoting text)) (attempt node pattern start) := by
  have hsame (before after : Chart) (hbefore : Leaves (Quoting text) before before)
      (htext : after.text = before.text) (hmemo : after.memo = before.memo) :
      Leaves (Quoting text) before after := Quoting.congr hbefore htext hmemo
  refine respects_attempt hsame (yields_build_quotes hstart hnode)
    (fun found hfound => (hfound found rfl).1) fun chart outcome houtcome hchart => ?_
  exact Quoting.withOutcome hchart start pattern.id fun found hfound => (houtcome found hfound).2

/-- All matching leaves charts behind whose tokens are spelled like what they cover. -/
theorem respects_quoting (grammar : Grammar) (text : Array Char) (room : Nat) :
    (∀ pattern start, Respects (Leaves (Quoting text)) (matchPattern grammar room pattern start)) ∧
    (∀ node start, Respects (Leaves (Quoting text)) (matchNode grammar room node start)) ∧
    (∀ node last, Respects (Leaves (Quoting text)) (matchBehind grammar room node last)) := by
  obtain ⟨hpattern, hnodes⟩ := respects_of_room leaves_markScanned (fun _ => True)
    (fun _ _ _ => trivial) (fun room hnode pattern _ start => by
      rw [matchPattern]
      exact respects_recalled (fun hstart => respects_attempt_quoting hstart fun root =>
        hnode root start) pattern) room
  exact ⟨fun pattern => hpattern pattern trivial, hnodes⟩

end Motif.Chart
