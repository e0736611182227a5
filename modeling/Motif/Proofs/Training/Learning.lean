import Motif.Proofs.Training.Culling
import Motif.Proofs.Training.Observing

/-!
# Training that refuses nothing

A steady trainer has settings that can be used and a tame registry, and as long as ids are short all
that has been proposed to it has been accepted. Every stage of an iteration leaves it steady. Only
long ids make a stage fail, and each proposal takes one id at most.
-/

namespace Motif

/-- No proposal has been rejected, and the ids of those that have been registered come from the
counter. -/
def Event.IsAccepted (nextId : Int) : Event → Prop
  | proposalRejected _ _ _ => False
  | patternProposed _ _ _ id _ => 0 ≤ id ∧ id < nextId
  | _ => True

theorem Event.IsAccepted.mono {event : Event} {nextId later : Int}
    (haccepted : event.IsAccepted nextId) (hle : nextId ≤ later) : event.IsAccepted later := by
  cases event with
  | patternProposed => exact ⟨haccepted.1, Int.lt_of_lt_of_le haccepted.2 hle⟩
  | _ => exact haccepted

namespace Trainer

open Registry

variable {trainer : Trainer} {bound : ℕ∞}

/-- No id of the registry has more than nine digits. -/
def HasShortIds (trainer : Trainer) : Prop :=
  trainer.registry.HasShortIds

/-- All settings can be used, the registry is tame, and every proposal has been accepted, unless ids
are long. -/
structure Steady (trainer : Trainer) : Prop where
  usable : trainer.options.IsUsable
  strategies : ∀ strategy ∈ trainer.strategies, strategy.IsUsable
  examples : ∃ limit, trainer.survey.maxExamples = .ok limit
  tame : trainer.registry.Tame
  accepted : trainer.HasShortIds →
    ∀ entry ∈ trainer.events, entry.2.IsAccepted trainer.registry.nextId

/-- The charts of the iteration have come about by matching registered patterns, and there are not
more than so many. -/
structure HasParsed (trainer : Trainer) (most : Nat) : Prop where
  length_le : trainer.charts.length ≤ most
  parsed : ∀ chart ∈ trainer.charts, trainer.registry.HasParsed chart

theorem HasParsed.mono {most more : Nat} (hcharts : trainer.HasParsed most) (hmore : most ≤ more) :
    trainer.HasParsed more :=
  { hcharts with length_le := hcharts.length_le.trans hmore }

theorem HasParsed.enter {most : Nat} (hcharts : trainer.HasParsed most) (stage : Stage) :
    HasParsed { trainer with stage } most :=
  { hcharts with }

theorem HasParsed.add {most : Nat} (hcharts : trainer.HasParsed most) {chart : Chart}
    (hchart : trainer.registry.HasParsed chart) :
    HasParsed { trainer with charts := trainer.charts ++ [chart] } (most + 1) where
  length_le := by
    rw [List.length_append, List.length_singleton]
    exact Nat.add_le_add_right hcharts.length_le 1
  parsed := List.forall_mem_append.mpr ⟨hcharts.parsed, List.forall_mem_singleton.mpr hchart⟩

/-- The number of ids that have been given out. -/
def usedIds (trainer : Trainer) : ℕ∞ :=
  trainer.registry.nextId.toNat

theorem usedIds_eq_of_recalls {registry : Registry}
    (hrecalls : trainer.registry.Recalls registry) :
    usedIds { trainer with registry } = trainer.usedIds :=
  congrArg (fun nextId : Int => (nextId.toNat : ℕ∞)) hrecalls.nextId

theorem usedIds_le_add_one {registry : Registry}
    (hnextId : registry.nextId ≤ trainer.registry.nextId + 1) :
    usedIds { trainer with registry } ≤ trainer.usedIds + 1 := by
  have hle : registry.nextId.toNat ≤ trainer.registry.nextId.toNat + 1 := by omega
  exact (Nat.cast_le.mpr hle).trans_eq (Nat.cast_succ _)

/-- The operation ends with a value of a property, unless an id becomes too long. Even then there is
a bound for the number of ids. -/
abbrev Ends {α : Type} (bound : ℕ∞) (trainer : Trainer) (action : Action α)
    (property : α → Trainer → Prop) : Prop :=
  EndsFrom (fun after => ¬ after.HasShortIds ∧ after.usedIds ≤ bound) trainer action property

namespace Steady

variable (hsteady : trainer.Steady)
include hsteady

theorem emitted (event : Event)
    (hevent : trainer.HasShortIds → event.IsAccepted trainer.registry.nextId) :
    { trainer with events := (trainer.iteration, event) :: trainer.events }.Steady :=
  { hsteady with
    accepted := fun hshort =>
      List.forall_mem_cons.mpr ⟨hevent hshort, hsteady.accepted hshort⟩ }

/-- Another tame registry whose counter has not gone back. -/
theorem withRegistry {registry : Registry} (htame : registry.Tame)
    (hle : trainer.registry.nextId ≤ registry.nextId) : { trainer with registry }.Steady :=
  { hsteady with
    tame := htame
    accepted := fun hshort entry hentry =>
      (hsteady.accepted (Int.le_trans hle hshort) entry hentry).mono hle }

end Steady

/-- A steady trainer with the same task, to which no more than so many ids have been added. -/
structure Continues (room : ℕ∞) (before after : Trainer) : Prop where
  steady : after.Steady
  strategies_eq : after.strategies = before.strategies
  paragraphs_eq : after.paragraphs = before.paragraphs
  nextId_le : before.registry.nextId ≤ after.registry.nextId
  usedIds_le : after.usedIds ≤ before.usedIds + room

theorem Steady.continues_self (hsteady : trainer.Steady) : trainer.Continues 0 trainer where
  steady := hsteady
  strategies_eq := rfl
  paragraphs_eq := rfl
  nextId_le := Int.le_refl _
  usedIds_le := by rw [add_zero]

/-- Another tame registry whose counter has neither gone back nor too far. -/
theorem Steady.continues_withRegistry (hsteady : trainer.Steady) {registry : Registry} {room : ℕ∞}
    (htame : registry.Tame) (hle : trainer.registry.nextId ≤ registry.nextId)
    (hused : usedIds { trainer with registry } ≤ trainer.usedIds + room) :
    trainer.Continues room { trainer with registry } where
  steady := hsteady.withRegistry htame hle
  strategies_eq := rfl
  paragraphs_eq := rfl
  nextId_le := hle
  usedIds_le := hused

/-- Storing descriptions takes no id. -/
theorem Steady.continues_recalled (hsteady : trainer.Steady) {registry : Registry}
    (hrecalls : trainer.registry.Recalls registry) :
    trainer.Continues 0 { trainer with registry } :=
  hsteady.continues_withRegistry (hsteady.tame.recalled hrecalls) hrecalls.grows.nextId_le
    ((usedIds_eq_of_recalls hrecalls).le.trans le_self_add)

namespace Continues

variable {room more : ℕ∞} {before after last : Trainer} (hcontinues : Continues room before after)
include hcontinues

theorem trans (hlast : Continues more after last) : Continues (room + more) before last where
  steady := hlast.steady
  strategies_eq := hlast.strategies_eq.trans hcontinues.strategies_eq
  paragraphs_eq := hlast.paragraphs_eq.trans hcontinues.paragraphs_eq
  nextId_le := Int.le_trans hcontinues.nextId_le hlast.nextId_le
  usedIds_le := by
    rw [← add_assoc]
    exact hlast.usedIds_le.trans (add_le_add_left hcontinues.usedIds_le more)

theorem mono (hmore : room ≤ more) : Continues more before after :=
  { hcontinues with usedIds_le := hcontinues.usedIds_le.trans (add_le_add_right hmore _) }

/-- What adds no ids may follow. -/
theorem idle (hlast : Continues 0 after last) : Continues room before last := by
  have htrans := hcontinues.trans hlast
  rwa [add_zero] at htrans

/-- Ids that are short in the end have always been. -/
theorem hasShortIds (hshort : after.HasShortIds) : before.HasShortIds :=
  Int.le_trans hcontinues.nextId_le hshort

/-- Only the stage is another one. -/
theorem enter (stage : Stage) : Continues room before { after with stage } where
  steady := { hcontinues.steady with }
  strategies_eq := hcontinues.strategies_eq
  paragraphs_eq := hcontinues.paragraphs_eq
  nextId_le := hcontinues.nextId_le
  usedIds_le := hcontinues.usedIds_le

end Continues

theorem run_onSurvey {α : Type} {action : Survey.Action α} {result : Except Fault α}
    {survey : Survey} (haction : action.run trainer.survey = (result, survey)) :
    (onSurvey action).run trainer = (result, { trainer with survey }) := by
  have hrun : (onSurvey action).run trainer = ((action.run trainer.survey).1,
      { trainer with survey := (action.run trainer.survey).2 }) := rfl
  rw [hrun, haction]

/-! ## Parsing and surveying -/

theorem Steady.exists_depthFor (hsteady : trainer.Steady) (paragraph : String) :
    ∃ depth, trainer.depthFor paragraph = .ok depth := by
  obtain ⟨limit, hlimit⟩ := hsteady.usable.maxDepth
  unfold depthFor
  split
  next => exact ⟨_, rfl⟩
  next => exact ⟨_, by rw [hlimit]; rfl⟩

theorem Steady.ends_parseFrom (hsteady : trainer.Steady) {most : Nat}
    (hcharts : trainer.HasParsed most) (number : Nat) (paragraphs : List String) :
    trainer.Ends bound (parseFrom number paragraphs) fun _ after =>
      trainer.Continues 0 after ∧ after.HasParsed (most + paragraphs.length) := by
  induction paragraphs generalizing trainer number most with
  | nil => exact ⟨hsteady.continues_self, hcharts⟩
  | cons paragraph rest ih =>
      obtain ⟨depth, hdepth⟩ := hsteady.exists_depthFor paragraph
      obtain ⟨parsed, hparse, hindexed, hknown⟩ :=
        hsteady.tame.exists_parse paragraph depth
      have hparsed := hasParsed_withHoles hindexed hknown trainer.registry.grammar
        trainer.options.holeMinKind
      refine .read (.lift hdepth (.lift hparse (.modify (.modify ?_))))
      refine (ih ?_ (?_ : HasParsed _ (most + 1)) (number + 1)).mono fun _ after hafter => ?_
      · have hadded : Steady { trainer with charts := trainer.charts ++
            [{ parsed with
              holes := parsed.findHoles trainer.registry.grammar trainer.options.holeMinKind }] } :=
          { hsteady with }
        exact hadded.emitted _ fun _ => trivial
      · exact { hcharts.add hparsed with }
      · rw [List.length_cons, Nat.add_comm rest.length, ← Nat.add_assoc]
        exact ⟨{ hafter.1 with }, hafter.2⟩

theorem Steady.ends_surveyCharts (hsteady : trainer.Steady) {most : Nat}
    (hcharts : trainer.HasParsed most) :
    trainer.Ends bound surveyCharts fun _ after =>
      trainer.Continues 0 after ∧ after.HasParsed most := by
  have hrecord : ∀ chart ∈ trainer.charts, ∀ state : Trainer,
      trainer.Continues 0 state ∧ state.HasParsed most →
        state.Ends bound (onSurvey (Survey.record trainer.registry.grammar chart)) fun _ after =>
          trainer.Continues 0 after ∧ after.HasParsed most := by
    intro chart _ state hstate
    obtain ⟨limit, hlimit⟩ := hstate.1.steady.examples
    have hexamples := (state.survey.maxExamples_observe trainer.registry.grammar chart).trans hlimit
    have hrecorded : Steady { state with
        survey := state.survey.observe trainer.registry.grammar chart } :=
      { hstate.1.steady with examples := ⟨limit, hexamples⟩ }
    exact .of_run (run_onSurvey (Survey.run_record hlimit _ chart))
      ⟨{ hstate.1 with steady := hrecorded }, { hstate.2 with }⟩
  refine .read ((EndsFrom.forM hrecord ⟨hsteady.continues_self, hcharts⟩).bind
    fun _ after hafter => ?_)
  have hsurveyed : Steady { after with surveyedUntil := after.registry.nextId } :=
    { hafter.1.steady with }
  refine .modify (.read ?_)
  refine ⟨{ hafter.1 with steady := hsurveyed.emitted _ ?_ }, { hafter.2 with }⟩
  exact fun _ => trivial

/-! ## Registering proposals -/

/-- A steady trainer with the same task and charts, in whose registry nothing has been lost and to
which no more than so many ids have been added. -/
structure Extends (room : ℕ∞) (before after : Trainer) : Prop
    extends Continues room before after where
  grows : Registry.Grows before.registry after.registry
  charts_eq : after.charts = before.charts

theorem Steady.extends_self (hsteady : trainer.Steady) : trainer.Extends 0 trainer where
  toContinues := hsteady.continues_self
  grows := .refl _
  charts_eq := rfl

namespace Extends

variable {room more : ℕ∞} {before after last : Trainer} (hextends : Extends room before after)
include hextends

theorem trans (hlast : Extends more after last) : Extends (room + more) before last where
  toContinues := hextends.toContinues.trans hlast.toContinues
  grows := hextends.grows.trans hlast.grows
  charts_eq := hlast.charts_eq.trans hextends.charts_eq

theorem mono (hmore : room ≤ more) : Extends more before after :=
  { hextends with toContinues := hextends.toContinues.mono hmore }

theorem hasParsed {most : Nat} (hcharts : before.HasParsed most) : after.HasParsed most where
  length_le := by
    rw [hextends.charts_eq]
    exact hcharts.length_le
  parsed chart hchart := by
    rw [hextends.charts_eq] at hchart
    exact (hcharts.parsed chart hchart).grow hextends.grows

end Extends

/-- A text that is compiled is accepted: it is registered, or a registered pattern stands for it. -/
theorem Steady.ends_registerProposal (hsteady : trainer.Steady) {proposal : Proposal}
    (hcompiles : trainer.HasShortIds → trainer.registry.Compiles proposal.text)
    (hbound : trainer.usedIds + 1 ≤ bound) :
    trainer.Ends bound (registerProposal proposal) fun found after =>
      trainer.Extends 1 after ∧ (after.HasShortIds → found.isSome) := by
  rcases hrun : (registerExperiment proposal.text).run trainer.registry with ⟨result, registry⟩
  have hkept := hsteady.tame.keeps_registerExperiment proposal.text
  rw [KeepsFrom, hrun] at hkept
  obtain ⟨htame, hgrows, hnextId⟩ := hkept
  -- As long as ids are short the text is registered, so all other results are about long ids.
  have hok : registry.HasShortIds → ∃ serial pattern, result = .ok serial ∧
      (serial, pattern) ∈ registry.registered := by
    intro hshort
    have hbefore := hgrows.hasShortIds hshort
    obtain ⟨serial, pattern, after, hafter, hregistered⟩ :=
      hsteady.tame.exists_registerExperiment hbefore (hcompiles hbefore)
    cases hrun.symm.trans hafter
    exact ⟨serial, pattern, rfl, hregistered⟩
  have hnext : trainer.Extends 1 { trainer with registry } :=
    { hsteady.continues_withRegistry htame hgrows.nextId_le (usedIds_le_add_one hnextId) with
      grows := hgrows
      charts_eq := rfl }
  unfold registerProposal
  refine .read ?_
  cases result with
  | ok serial =>
      refine .after_ok ((run_attempt (run_onRegistry hrun)).trans rfl) ?_
      refine .read (.modify (.pure ⟨{ hnext with steady := ?_ }, fun _ => rfl⟩))
      refine hnext.steady.emitted _ fun hshort => ?_
      obtain ⟨_, pattern, ⟨⟩, hregistered⟩ := hok hshort
      have hid := htame.bounded _ _ (htame.coherent.mem_entries_of_registered hregistered)
      simpa [Event.IsAccepted, (mem_registered hregistered).1] using hid
  | error fault =>
      have hlong : ¬ registry.HasShortIds := by
        intro hshort
        obtain ⟨_, _, ⟨⟩, -⟩ := hok hshort
      cases fault
      case pattern =>
        refine .after_ok ((run_attempt (run_onRegistry hrun)).trans rfl) (.pure ⟨?_, ?_⟩)
        · exact { hnext with steady := hnext.steady.emitted _ fun hshort => absurd hshort hlong }
        · exact fun hshort => absurd hshort hlong
      all_goals
        exact .after_error ((run_attempt (run_onRegistry hrun)).trans rfl)
          ⟨hlong, hnext.usedIds_le.trans hbound⟩

theorem Steady.ends_registerAll (hsteady : trainer.Steady) {proposals : List Proposal}
    (hcompiles : trainer.HasShortIds →
      ∀ proposal ∈ proposals, trainer.registry.Compiles proposal.text)
    (hbound : trainer.usedIds + proposals.length ≤ bound) (summary : Summary) :
    trainer.Ends bound (registerAll proposals summary) fun result after =>
      trainer.Extends proposals.length after ∧
        (after.HasShortIds → result.rejected = summary.rejected) := by
  induction proposals generalizing trainer summary with
  | nil => exact ⟨hsteady.extends_self, fun _ => rfl⟩
  | cons proposal rest ih =>
      rw [List.length_cons, Nat.cast_succ, add_comm (rest.length : ℕ∞)] at hbound ⊢
      rw [← add_assoc] at hbound
      unfold registerAll
      refine (hsteady.ends_registerProposal
        (fun hshort => hcompiles hshort proposal List.mem_cons_self)
        (le_self_add.trans hbound)).bind fun found middle hmiddle => ?_
      obtain ⟨hextends, hfound⟩ := hmiddle
      have hrest : middle.HasShortIds →
          ∀ proposal ∈ rest, middle.registry.Compiles proposal.text := fun hshort other hother =>
        hextends.grows.compiles (hcompiles (hextends.hasShortIds hshort) other
          (List.mem_cons_of_mem _ hother))
      have hleft : middle.usedIds + rest.length ≤ bound :=
        (add_le_add_left hextends.usedIds_le _).trans hbound
      cases found with
      | none =>
          refine (ih hextends.steady hrest hleft _).mono fun result after hafter => ?_
          refine ⟨hextends.trans hafter.1, fun hshort => ?_⟩
          cases hfound (hafter.1.hasShortIds hshort)
      | some id =>
          refine (ih hextends.steady hrest hleft _).mono fun result after hafter => ?_
          refine ⟨hextends.trans hafter.1, fun hshort => (hafter.2 hshort).trans ?_⟩
          split <;> rfl

/-- A survey that keeps as many examples as before does not matter. -/
theorem Steady.extends_withSurvey (hsteady : trainer.Steady) {survey : Survey}
    (hexamples : survey.maxExamples = trainer.survey.maxExamples) :
    trainer.Extends 0 { trainer with survey } :=
  { hsteady.extends_self with
    steady := { hsteady with examples := hexamples ▸ hsteady.examples } }

/-- Asking a strategy stores descriptions, but it takes no id. -/
theorem Steady.ends_propose (hsteady : trainer.Steady) {most : Nat}
    (hcharts : trainer.HasParsed most) {strategy : Strategy} (husable : strategy.IsUsable)
    (hbound : trainer.usedIds ≤ bound) (survey : Survey) :
    trainer.Ends bound (onRegistry (strategy.propose survey trainer.charts)) fun proposals after =>
      trainer.Extends 0 after ∧ (proposals.length : ℕ∞) ≤ strategy.room most ∧
        (after.HasShortIds → ∀ proposal ∈ proposals, after.registry.Compiles proposal.text) := by
  obtain ⟨result, registry, hrun, ⟨-, hrecalls⟩, hresult⟩ :=
    husable.answers_propose hsteady.tame hcharts.parsed survey trainer.registry
      ⟨hsteady.tame.recalls, hsteady.tame.recalls⟩
  cases result with
  | error fault =>
      rw [Ends, EndsFrom, run_onRegistry hrun]
      exact ⟨fun hshort => hresult (hrecalls.hasShortIds_iff.mp hshort),
        (usedIds_eq_of_recalls hrecalls).le.trans hbound⟩
  | ok proposals =>
      refine .of_run (run_onRegistry hrun) ⟨?_, Strategy.length_le_room hcharts.length_le hrun, ?_⟩
      · exact
          { hsteady.continues_recalled hrecalls with
            grows := hrecalls.grows
            charts_eq := rfl }
      · intro hshort proposal hproposal
        exact hrecalls.grows.compiles
          (hresult (hrecalls.hasShortIds_iff.mp hshort) proposal hproposal)

/-- Strategies that can be asked for propose only what is accepted. -/
theorem Steady.ends_runStrategies (hsteady : trainer.Steady) {most : Nat}
    (hcharts : trainer.HasParsed most) {strategies : List Strategy}
    (husable : ∀ strategy ∈ strategies, strategy.IsUsable)
    (hbound : trainer.usedIds + (strategies.map (Strategy.room most)).sum ≤ bound)
    (summary : Summary) :
    trainer.Ends bound (runStrategies strategies summary) fun result after =>
      trainer.Extends (strategies.map (Strategy.room most)).sum after ∧
        (after.HasShortIds → result.rejected = summary.rejected) := by
  induction strategies generalizing trainer summary with
  | nil => exact ⟨hsteady.extends_self, fun _ => rfl⟩
  | cons strategy rest ih =>
      rw [List.map_cons, List.sum_cons] at hbound ⊢
      unfold runStrategies
      have hsurveyed := hsteady.extends_withSurvey
        (strategy.maxExamples_surveyAfter trainer.registry trainer.survey)
      refine .read (.modify (EndsFrom.bind (hsurveyed.steady.ends_propose
        (hsurveyed.hasParsed hcharts) (husable _ List.mem_cons_self) (le_self_add.trans hbound) _)
        fun proposals asked hproposed => ?_))
      obtain ⟨hproposed, hroom, hcompiles⟩ := hproposed
      have hasked : trainer.Extends 0 asked := (hsurveyed.trans hproposed).mono (add_zero 0).le
      have hfirst : asked.usedIds + proposals.length ≤ bound := by
        apply (add_le_add hasked.usedIds_le (hroom.trans le_self_add)).trans
        rwa [add_zero]
      refine (hasked.steady.ends_registerAll hcompiles hfirst summary).bind
        fun between middle hmiddle => ?_
      have hextends : trainer.Extends (strategy.room most) middle :=
        (hasked.trans hmiddle.1).mono (by rwa [zero_add])
      have hleft : middle.usedIds + (rest.map (Strategy.room most)).sum ≤ bound := by
        rw [← add_assoc] at hbound
        exact (add_le_add_left hextends.usedIds_le _).trans hbound
      have hrest := fun other hother => husable other (List.mem_cons_of_mem _ hother)
      refine (ih hextends.steady (hextends.hasParsed hcharts) hrest hleft between).mono
        fun last after hafter => ⟨hextends.trans hafter.1, fun hshort => ?_⟩
      exact (hafter.2 hshort).trans (hmiddle.2 (hafter.1.hasShortIds hshort))

end Trainer

end Motif
