import Mathlib
import Motif.Proofs.Matching.Calls
import Motif.Proofs.Matching.Charts
import Motif.Registry.Compile

/-!
# Sharing a chart

Two patterns may be matched on one chart, each of them registered or only compiled. Outcomes are
remembered by position and id, and patterns that are only compiled have one id in common. So the
second pattern is matched as on a fresh chart, unless neither of the two is registered and both are
tried at the same place: then the outcome of the first is taken for that of the second.
-/

namespace Motif

namespace Chart

/-! ## Outcomes that stay as they are -/

/-- The outcomes of the cells are the same in both charts. -/
def Spares (cells : Int → Int → Prop) (before after : Chart) : Prop :=
  ∀ position id, cells position id → after.outcome? position id = before.outcome? position id

instance {cells : Int → Int → Prop} : Growth (Spares cells) where
  trans hfirst hsecond position id hcell :=
    (hsecond position id hcell).trans (hfirst position id hcell)
  refl_right _ _ _ _ := rfl

variable {cells : Int → Int → Prop} {grammar : Grammar}

theorem spares_markScanned (id position : Int) (chart : Chart) :
    Spares cells chart (chart.markScanned id position) :=
  fun place other _ => outcome?_markScanned chart id position place other

/-- What is built for a pattern belongs to it and starts where it should. -/
theorem yields_build_placed {grows : Chart → Chart → Prop} [Growth grows]
    {node : Node → Int → Action (Option Reach)} {pattern : Pattern} {start : Int}
    (hnode : ∀ root, pattern.content = .tree root → Respects grows (node root start)) :
    Yields grows (build node pattern start)
      (fun value _ => ∀ found, value = some found → found.start = start ∧ found.id = pattern.id)
      fun _ => True := by
  intro chart hchart
  unfold build
  cases hcontent : pattern.content with
  | literal word =>
      refine .read (.pure hchart ?_)
      intro found hfound
      split at hfound <;> cases hfound
      exact ⟨rfl, rfl⟩
  | tree root =>
      refine (hnode root hcontent chart hchart).bind fun value after hafter _ => ?_
      cases value with
      | none => exact .pure (Growth.refl_right hafter) (by simp)
      | some reach =>
          refine .read (.pure (Growth.refl_right hafter) ?_)
          rintro found ⟨⟩
          exact ⟨rfl, rfl⟩

/-- A trial changes no cell but its own, if what is matched for it does not. -/
theorem spares_attempt {node : Node → Int → Action (Option Reach)} {pattern : Pattern} {start : Int}
    (hcell : ¬ cells start pattern.id) (hnode : ∀ root, Respects (Spares cells) (node root start)) :
    Respects (Spares cells) (attempt node pattern start) := by
  have hsame (before after : Chart) (_ : Spares cells before before)
      (_ : after.text = before.text) (hmemo : after.memo = before.memo) :
      Spares cells before after := by
    intro position id _
    rw [outcome?, outcome?, hmemo]
  refine respects_attempt hsame (yields_build_placed fun root _ => hnode root)
    (fun found hfound => hfound found rfl) fun chart outcome _ _ position id hother => ?_
  rw [outcome?_withOutcome, if_neg]
  rintro ⟨rfl, rfl⟩
  exact hcell hother

/-- Whatever is matched of the patterns of a grammar, outcomes of other ids stay as they are. -/
theorem spares_of_room (hid : ∀ id pattern, grammar.find? id = some pattern → pattern.id = id)
    (hcells : ∀ position id, cells position id → grammar.find? id = none) (room : Nat) :
    (∀ pattern, (grammar.find? pattern.id).isSome →
      ∀ start, Respects (Spares cells) (matchPattern grammar room pattern start)) ∧
    (∀ node start, Respects (Spares cells) (matchNode grammar room node start)) ∧
    (∀ node last, Respects (Spares cells) (matchBehind grammar room node last)) := by
  refine respects_of_room (fun id position chart _ => spares_markScanned id position chart)
    (fun pattern => (grammar.find? pattern.id).isSome) ?_ ?_ room
  · intro id pattern hfind
    simp [hid id pattern hfind, hfind]
  · intro room hnode pattern hknown start
    have hcell : ¬ cells start pattern.id := fun hcell => by
      rw [hcells _ _ hcell] at hknown
      cases hknown
    rw [matchPattern]
    exact respects_recalled (fun _ => spares_attempt hcell fun root => hnode root start) pattern

/-- Matching a pattern changes no outcome of an id that the grammar does not have, but for its own
outcome. -/
theorem spares_matchPattern (hid : ∀ id pattern, grammar.find? id = some pattern → pattern.id = id)
    (room : Nat) (pattern : Pattern) (start : Int) :
    Respects (Spares fun position id =>
        grammar.find? id = none ∧ ¬ (position = start ∧ id = pattern.id))
      (matchPattern grammar room pattern start) := by
  cases room with
  | zero =>
      rw [matchPattern]
      exact respects_recalled (fun _ => composable_respects.pure none) pattern
  | succ room =>
      obtain ⟨-, hnode, -⟩ := spares_of_room hid (fun _ _ => And.left) room
      rw [matchPattern]
      exact respects_recalled (fun _ => spares_attempt (fun hcell => hcell.2 ⟨rfl, rfl⟩)
        fun root => hnode root start) pattern

theorem covers_ofText (text : String) (position : Int) :
    (ofText text).covers position = decide (0 ≤ position ∧ position < text.length) := by
  rw [covers, size, ofText, List.size_toArray, String.length_toList, Bool.decide_and]

end Chart

namespace Registry

open Evaluation

/-- A pattern that may be matched along with the registered ones: one of them, or one that has been
compiled and refers to them. -/
inductive Callable (registry : Registry) : Pattern → Prop where
  | registered {pattern : Pattern} (hpattern : pattern ∈ registry.patterns) :
    Callable registry pattern
  | compiled {pattern : Pattern} (hid : pattern.id = -1)
    (hknown : ∀ id ∈ pattern.content.references, (registry.byId? id).isSome)
    (hbehind : ∀ root node, pattern.content = .tree root → Node.Within node root →
      node.look = .behind → node.SingleFile) : Callable registry pattern

variable {registry : Registry} {first second pattern : Pattern} {text : String}

namespace Callable

theorem own (hpattern : registry.Callable pattern) (hcoherent : registry.Coherent)
    (hfree : registry.byId? (-1) = none) (hknown : (registry.byId? pattern.id).isSome) :
    registry.byId? pattern.id = some pattern := by
  cases hpattern with
  | registered hpattern => exact hcoherent.mem_patterns_iff.mp hpattern
  | compiled hid =>
      rw [hid, hfree] at hknown
      cases hknown

theorem id_eq (hpattern : registry.Callable pattern) (hcoherent : registry.Coherent)
    (hnone : registry.byId? pattern.id = none) : pattern.id = -1 := by
  cases hpattern with
  | registered hpattern =>
      rw [hcoherent.mem_patterns_iff.mp hpattern] at hnone
      cases hnone
  | compiled hid => exact hid

theorem known (hpattern : registry.Callable pattern) (hclosed : registry.Closed) {id : Int}
    (hid : id ∈ pattern.content.references) : (registry.byId? id).isSome := by
  cases hpattern with
  | registered hpattern => exact hclosed pattern hpattern id hid
  | compiled _ hknown => exact hknown id hid

theorem retraces (hpattern : registry.Callable pattern) (hbehind : registry.LooksBehindInSingleFile)
    (text : String) : Retraces (registry.token text) pattern.content := by
  cases hpattern with
  | registered hpattern => exact hbehind.retracesIn text pattern hpattern
  | compiled _ _ hsingle =>
      exact fun root node hcontent hwithin hlook =>
        (hsingle root node hcontent hwithin hlook).retraceable _

end Callable

/-- A chart of a text on which one pattern has been tried at one position: its outcome there is
remembered, and no other one of an id that is not registered. -/
structure Tried (registry : Registry) (text : String) (first : Pattern) (position : Int)
    (chart : Chart) : Prop where
  faithful : Chart.Faithful registry.grammar text.toList.toArray (registry.token text) []
    (fun _ _ => False) chart
  outcome_eq : 0 ≤ position ∧ position < text.length →
    chart.outcome? position first.id = some (registry.evaluate text first position)
  eq_of_outcome : ∀ place id outcome, registry.byId? id = none →
    chart.outcome? place id = some outcome →
      place = position ∧ id = first.id ∧ 0 ≤ position ∧ position < text.length

/-- Of the ids that are not registered, what is matched on a fresh chart remembers its own one only,
and outside the text nothing. -/
theorem Coherent.eq_of_outcome_of_run (hcoherent : registry.Coherent) {room : Nat} {position : Int}
    {result : Except Fault (Option Token)} {after : Chart}
    (hrun : (Chart.matchPattern registry.grammar room first position).run (Chart.ofText text) =
      (result, after)) {place id : Int} {outcome : Option Token}
    (hunknown : registry.byId? id = none) (houtcome : after.outcome? place id = some outcome) :
    place = position ∧ id = first.id ∧ 0 ≤ position ∧ position < text.length := by
  have hid (id : Int) (found : Pattern) (hfound : registry.grammar.find? id = some found) :
      found.id = id := hcoherent.id_eq hfound
  obtain ⟨value, other, hother, hspares, -⟩ := Chart.spares_matchPattern hid room first position
    (Chart.ofText text) fun _ _ _ => rfl
  obtain rfl : other = after := congrArg Prod.snd (hother.symm.trans hrun)
  by_cases hcell : place = position ∧ id = first.id
  · by_cases hinside : 0 ≤ position ∧ position < text.length
    · exact ⟨hcell.1, hcell.2, hinside⟩
    · obtain ⟨attempt, hrecalled⟩ :=
        Chart.exists_matchPattern_eq_recalled registry.grammar room first position
      have houtside : (Chart.ofText text).covers position = false := by
        rw [Chart.covers_ofText, decide_eq_false hinside]
      rw [hrecalled, (Chart.replays_recalled_outside houtside first attempt).run_eq] at hother
      cases hother
      simp at houtcome
  · rw [hspares place id ⟨hunknown, hcell⟩, Chart.outcome?_ofText] at houtcome
    cases houtcome

section Pairs

variable (hcoherent : registry.Coherent) (hclosed : registry.Closed) (hacyclic : registry.Acyclic)
  (hbehind : registry.LooksBehindInSingleFile) (hfree : registry.byId? (-1) = none)
include hcoherent hclosed hacyclic hbehind hfree

/-- With room for its depth a pattern is matched as it is evaluated, if no other outcome is
remembered for it. -/
theorem Callable.settlesFrom (hpattern : registry.Callable pattern) {room : Nat}
    (hroom : pattern.depth registry.depth ≤ room) {start : Int} {done : Int → Int → Prop}
    {chart : Chart} (hchart : Chart.Faithful registry.grammar text.toList.toArray
      (registry.token text) [] done chart)
    (hremembered : ∀ outcome, chart.outcome? start pattern.id = some outcome →
      outcome = registry.evaluate text pattern start) :
    SettlesFrom (Chart.Faithful registry.grammar text.toList.toArray (registry.token text) [] done)
      chart (Chart.matchPattern registry.grammar room pattern start)
      (registry.evaluate text pattern start) :=
  settlesFrom_matchPattern hcoherent hclosed hacyclic (hbehind.retracesIn text)
    (hpattern.own hcoherent hfree) (fun _ => hpattern.known hclosed)
    (hpattern.retraces hbehind text) hroom hchart hremembered

/-- On a fresh chart a pattern is matched as it is evaluated, and then it has been tried. -/
theorem Callable.settlesFrom_ofText (hfirst : registry.Callable first) {room : Nat}
    (hroom : first.depth registry.depth ≤ room) (text : String) (position : Int) :
    SettlesFrom (registry.Tried text first position) (Chart.ofText text)
      (Chart.matchPattern registry.grammar room first position)
      (registry.evaluate text first position) := by
  obtain ⟨after, hrun, hafter⟩ := hfirst.settlesFrom hcoherent hclosed hacyclic hbehind hfree hroom
    (Chart.faithful_ofText text) (by simp)
  refine ⟨after, hrun, hafter, fun hinside => ?_, fun place id outcome hunknown houtcome =>
    hcoherent.eq_of_outcome_of_run hrun hunknown houtcome⟩
  obtain ⟨room, rfl⟩ := Pattern.exists_room hroom
  have hcovers : (Chart.ofText text).covers position = true := by
    rw [Chart.covers_ofText, decide_eq_true hinside]
  have hnew := Chart.outcome?_ofText text position first.id
  rw [Chart.matchPattern, Chart.run_recalled_of_new hcovers hnew] at hrun
  refine Chart.outcome?_of_run_attempt (Chart.indexed_ofText text) ?_ hinside.1 hnew
    List.not_mem_nil hrun
  rw [List.size_toArray, String.length_toList]
  exact hinside.2

/-- Where one pattern has been tried, another one is matched as it is evaluated, unless neither of
the two is registered and both are tried at the same place. -/
theorem Tried.exists_run {chart : Chart} {position : Int}
    (hchart : registry.Tried text first position chart) (hsecond : registry.Callable second)
    {room : Nat} (hroom : second.depth registry.depth ≤ room) (start : Int) :
    ∃ after, (Chart.matchPattern registry.grammar room second start).run chart =
      (.ok (if (first.id = -1 ∧ second.id = -1) ∧ position = start ∧ 0 ≤ start ∧ start < text.length
        then registry.evaluate text first position
        else registry.evaluate text second start), after) := by
  split
  next hshared =>
    obtain ⟨⟨hfirstId, hsecondId⟩, rfl, hinside⟩ := hshared
    obtain ⟨attempt, hrecalled⟩ := Chart.exists_matchPattern_eq_recalled registry.grammar room
      second position
    have hcovers : chart.covers position = true := by
      rw [Chart.covers, Chart.size, hchart.faithful.text_eq, List.size_toArray,
        String.length_toList, ← Bool.decide_and, decide_eq_true hinside]
    have hremembered := hchart.outcome_eq hinside
    rw [hfirstId, ← hsecondId] at hremembered
    rw [hrecalled, (Chart.replays_recalled hcovers hremembered attempt).run_eq]
    exact ⟨chart, rfl⟩
  next happart =>
    have hremembered : ∀ outcome, chart.outcome? start second.id = some outcome →
        outcome = registry.evaluate text second start := by
      intro outcome houtcome
      cases hknown : registry.byId? second.id with
      | some pattern =>
          have hfind : registry.grammar.find? second.id = some pattern := hknown
          rw [hchart.faithful.outcome_eq (by simp [hfind]) houtcome, token_eq hcoherent hclosed
            hacyclic text (hsecond.own hcoherent hfree (by simp [hknown]))]
      | none =>
          obtain ⟨rfl, hid, hinside⟩ := hchart.eq_of_outcome start second.id outcome hknown houtcome
          have hsecondId := hsecond.id_eq hcoherent hknown
          exact absurd ⟨⟨hid ▸ hsecondId, hsecondId⟩, rfl, hinside⟩ happart
    obtain ⟨after, hrun, -⟩ := hsecond.settlesFrom hcoherent hclosed hacyclic hbehind hfree hroom
      hchart.faithful hremembered
    exact ⟨after, hrun⟩

/-- A pattern that is matched on a chart on which another one has been matched before gives what it
gives on a fresh chart, unless neither of the two is registered and both are tried at the same place
of the text: then it gives the outcome of the other one. -/
theorem matchAll_pair_eq (hfirst : registry.Callable first) (hsecond : registry.Callable second)
    (text : String) (position start : Int) {maxDepth : Int}
    (hshared : Unreached (fun limit => (Chart.matchAll registry.grammar
      [(first, position), (second, start)] limit).run (Chart.ofText text)) maxDepth)
    (hfresh : Unreached (fun limit => registry.matchText second text start limit) maxDepth) :
    registry.matchText second text start maxDepth = .ok (registry.evaluate text second start) ∧
      ((Chart.matchAll registry.grammar [(first, position), (second, start)] maxDepth).run
          (Chart.ofText text)).1 =
        .ok [registry.evaluate text first position,
          if (first.id = -1 ∧ second.id = -1) ∧ position = start ∧ 0 ≤ start ∧ start < text.length
          then registry.evaluate text first position else registry.evaluate text second start] := by
  constructor
  · exact matchText_eq_evaluate hcoherent hclosed hacyclic (hbehind.retracesIn text)
      (hsecond.own hcoherent hfree) (fun _ => hsecond.known hclosed) (hsecond.retraces hbehind text)
      hfresh
  · -- The outcomes are those at a greater limit, which leaves room for both depths.
    obtain ⟨greater, hgreater, hroom⟩ := exists_limit [first, second] registry.depth maxDepth
    obtain ⟨middle, hrun, hmiddle⟩ := hfirst.settlesFrom_ofText hcoherent hclosed hacyclic hbehind
      hfree (hroom first List.mem_cons_self) text position
    obtain ⟨after, hafter⟩ := hmiddle.exists_run hcoherent hclosed hacyclic hbehind hfree hsecond
      (hroom second (List.mem_cons_of_mem _ List.mem_cons_self)) start
    have hsame : (Chart.matchAll registry.grammar [(first, position), (second, start)] greater).run
        (Chart.ofText text) = (Chart.matchAll registry.grammar
          [(first, position), (second, start)] maxDepth).run (Chart.ofText text) :=
      hshared greater hgreater
    have hfirstRun : (Chart.tryPattern registry.grammar first position greater).run
        (Chart.ofText text) = (.ok _, middle) := hrun
    have hsecondRun : (Chart.tryPattern registry.grammar second start greater).run middle =
        (.ok _, after) := hafter
    rw [← hsame, Chart.matchAll, List.mapM_cons, List.mapM_cons, List.mapM_nil,
      run_bind_of_ok hfirstRun, bind_assoc, run_bind_of_ok hsecondRun]
    rfl

end Pairs

/-- The letter with an id, compiled but not registered. -/
def compiledLetter (id : Int) : Pattern where
  kind := .experimental
  content := .tree (.plainGroup [[.plainRef id]])
  penalty := 2

theorem callable_compiledLetter {id : Int} (hknown : (lookingBack.byId? id).isSome) :
    lookingBack.Callable (compiledLetter id) := by
  refine .compiled rfl ?_ ?_
  · intro other hother
    obtain rfl : other = id := by
      simpa [compiledLetter, Content.references, Node.plainGroup, Node.plainRef] using hother
    exact hknown
  · rintro root node ⟨⟩ hwithin hlook
    have hplain : node.look = .here := by
      rcases Node.within_group_iff.mp hwithin with rfl | ⟨sequence, hsequence, child, hchild, hnode⟩
      · rfl
      · obtain rfl := List.mem_singleton.mp hsequence
        obtain rfl := List.mem_singleton.mp hchild
        rw [Node.within_ref_iff.mp hnode]
        rfl
    rw [hplain] at hlook
    cases hlook

/-- A registered pattern and a letter that is only compiled are kept apart at one place, and so are
two such letters at two places. -/
theorem matchAll_pair_eq_lookingBack :
    (lookingBack.byId? (-1) = none ∧ lookingBack.compile "[1]" = .ok (compiledLetter 1)) ∧
    ∀ first ∈ [(lookingBack.ledger[3], (2 : Int)), (compiledLetter 0, 0)],
      lookingBack.matchText (compiledLetter 1) "aab" 2 8 =
          .ok (lookingBack.evaluate "aab" (compiledLetter 1) 2) ∧
      ((Chart.matchAll lookingBack.grammar [first, (compiledLetter 1, 2)] 8).run
          (Chart.ofText "aab")).1 =
        .ok [lookingBack.evaluate "aab" first.1 first.2,
          lookingBack.evaluate "aab" (compiledLetter 1) 2] := by
  refine ⟨⟨rfl, by cbv⟩, fun first hfirst => ?_⟩
  have hcallable : lookingBack.Callable first.1 := by
    simp only [List.mem_cons, List.not_mem_nil, or_false] at hfirst
    rcases hfirst with rfl | rfl
    · exact .registered (Array.getElem_mem_toList (show 3 < lookingBack.ledger.size by decide))
    · exact callable_compiledLetter rfl
  have hdepth : ∀ first ∈ [(lookingBack.ledger[3], (2 : Int)), (compiledLetter 0, 0)],
      first.1.depth lookingBack.depth ≤ Chart.roomFor 8 := by decide
  have hapart : ∀ first ∈ [(lookingBack.ledger[3], (2 : Int)), (compiledLetter 0, 0)],
      ¬ ((first.1.id = -1 ∧ (compiledLetter 1).id = -1) ∧ first.2 = (2 : Int) ∧ (0 : Int) ≤ 2 ∧
        (2 : Int) < "aab".length) := by decide
  have hletter : lookingBack.Callable (compiledLetter 1) := callable_compiledLetter rfl
  have hsecond : (compiledLetter 1).depth lookingBack.depth ≤ Chart.roomFor 8 := by decide
  obtain ⟨hfresh, hshared⟩ := matchAll_pair_eq lookingBack_coherent lookingBack_closed
    lookingBack_acyclic lookingBack_looksBehindInSingleFile rfl hcallable
    hletter "aab" first.2 2
    (unreached_matchAll lookingBack_coherent lookingBack_closed lookingBack_acyclic
      (by simpa using ⟨hdepth first hfirst, hsecond⟩) _)
    (unreached_matchText lookingBack_coherent lookingBack_closed lookingBack_acyclic hsecond "aab"
      2)
  rw [if_neg (hapart first hfirst)] at hshared
  exact ⟨hfresh, hshared⟩

/-- Two letters, registered as literals with names. -/
def letterPair : Registry where
  ledger := #[
    { kind := .literal, name := some "a", content := .literal "a", id := 0 },
    { kind := .literal, name := some "b", content := .literal "b", id := 1 }]
  entries := [(0, 0), (1, 1)]
  names := [("a", 0), ("b", 1)]
  literals := [("a", 0), ("b", 1)]
  nextId := 2

theorem letterPair_coherent : letterPair.Coherent where
  nodup_ids := by decide
  exists_pattern {id serial} hentry := by
    simp only [letterPair, List.mem_cons, Prod.mk.injEq, List.not_mem_nil, or_false] at hentry
    rcases hentry with ⟨rfl, rfl⟩ | ⟨rfl, rfl⟩ <;> exact ⟨_, rfl, rfl⟩

theorem letterPair_acyclic : letterPair.Acyclic := by
  have hnone : ∀ pattern ∈ letterPair.patterns, pattern.content.references = [] := by decide
  refine acyclic_of_decreasing Int.toNat ?_
  rintro id other ⟨pattern, hpattern, hother⟩
  have hmem := letterPair_coherent.mem_patterns_iff.mpr
    ((letterPair_coherent.id_eq hpattern).symm ▸ hpattern)
  rw [hnone pattern hmem] at hother
  cases hother

/-- Where all that is registered are two letters, one that is only compiled is taken to match where
the other one has been matched. -/
theorem matchAll_pair_ne_letterPair :
    (letterPair.Coherent ∧ letterPair.Closed ∧ letterPair.Acyclic ∧
      ∀ pattern ∈ letterPair.patterns, pattern.literal?.isSome) ∧
    (letterPair.compile "a" = .ok (compiledLetter 0) ∧
      letterPair.compile "b" = .ok (compiledLetter 1)) ∧
    (Unreached (fun limit => letterPair.matchText (compiledLetter 1) "a" 0 limit) 8 ∧
      letterPair.matchText (compiledLetter 1) "a" 0 8 = .ok none) ∧
    Unreached (fun limit => (Chart.matchAll letterPair.grammar
      [(compiledLetter 0, 0), (compiledLetter 1, 0)] limit).run (Chart.ofText "a")) 8 ∧
    ∃ token, ((Chart.matchAll letterPair.grammar [(compiledLetter 0, 0), (compiledLetter 1, 0)]
      8).run (Chart.ofText "a")).1 = .ok [some token, some token] := by
  have hclosed : letterPair.Closed := by
    unfold Closed
    decide
  have hdepth : ∀ call ∈ [(compiledLetter 0, (0 : Int)), (compiledLetter 1, 0)],
      call.1.depth letterPair.depth ≤ Chart.roomFor 8 := by decide
  refine ⟨⟨letterPair_coherent, hclosed, letterPair_acyclic, by decide⟩, ⟨by cbv, by cbv⟩,
    ⟨?_, by cbv⟩, ?_, _, by cbv⟩
  · exact unreached_matchText letterPair_coherent hclosed letterPair_acyclic
      (hdepth (compiledLetter 1, 0) (by simp)) "a" 0
  · exact unreached_matchAll letterPair_coherent hclosed letterPair_acyclic hdepth _

end Registry

end Motif
