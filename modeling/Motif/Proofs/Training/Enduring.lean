import Motif.Proofs.Training.Accounting

/-!
# What endures training

All that training does to a registry is that it stores trees and descriptions, registers what it
has compiled under the next id, gives the name of a shape to an experiment and removes experiments
to which nothing refers. What each of these changes keeps is kept by every iteration, also by one
that fails on the way.
-/

namespace Motif

namespace Registry

variable {before after : Registry}

theorem OnlyStores.compile_eq (hstores : before.OnlyStores after) (text : String) :
    after.compile text = before.compile text := by
  rw [hstores]
  rfl

theorem mem_registered_of_isRegistered {registry : Registry} {serial : Serial} {pattern : Pattern}
    (hpattern : registry.pattern? serial = some pattern)
    (hregistered : registry.isRegistered serial = true) :
    (serial, pattern) ∈ registry.registered := by
  simp only [isRegistered, hpattern, decide_eq_true_eq] at hregistered
  exact mem_registered_of_entry (mem_of_lookup hregistered) hpattern

/-- A property of registries that is kept by each change of training. -/
structure Enduring (invariant : Registry → Prop) : Prop where
  stores : ∀ {registry after}, invariant registry → registry.OnlyStores after → invariant after
  withNext : ∀ {registry text pattern}, invariant registry → registry.compile text = .ok pattern →
    invariant (registry.withNext pattern)
  named : ∀ {registry serial pattern name}, invariant registry →
    (serial, pattern) ∈ registry.registered → pattern.kind = .experimental →
      registry.named? name = none → invariant (registry.renamed serial pattern name (some .derived))
  without : ∀ {registry serial pattern}, invariant registry →
    (serial, pattern) ∈ registry.registered → pattern.kind = .experimental →
      registry.dependents serial pattern.id = [] → invariant (registry.without serial pattern)

namespace Enduring

variable {invariant : Registry → Prop} (henduring : Enduring invariant) {registry : Registry}
  (hregistry : invariant registry)
include henduring hregistry

theorem keeps_of_storing {α : Type} {action : Action α} {property : α → Prop}
    (hstoring : StoresFor action property) : KeepsFrom invariant registry action :=
  henduring.stores hregistry (hstoring.onlyStores rfl)

theorem keeps_registerExperiment (text : String) :
    KeepsFrom invariant registry (registerExperiment text) := by
  unfold KeepsFrom
  rcases hrun : (registerExperiment text).run registry with ⟨result, after⟩
  rcases registerExperiment_cases hrun with ⟨hstores, -⟩ | hadds
  · exact henduring.stores hregistry hstores
  · obtain ⟨pattern, middle, hcompile, hstores, rfl⟩ := hadds.exists_pattern
    apply henduring.withNext (henduring.stores hregistry hstores)
    · rw [hstores.compile_eq]
      exact hcompile

end Enduring

end Registry

namespace Trainer

open Registry

variable {trainer : Trainer} {α β : Type} {invariant : Registry → Prop}

/-- From one trainer the operation ends with a registry that has the invariant, also if it
fails. -/
abbrev KeepsRegistry (invariant : Registry → Prop) (trainer : Trainer) (action : Action α) : Prop :=
  EndsFrom (fun after => invariant after.registry) trainer action
    fun _ after => invariant after.registry

theorem keepsRegistry_onRegistry {action : Registry.Action α}
    (haction : KeepsFrom invariant trainer.registry action) :
    KeepsRegistry invariant trainer (onRegistry action) := by
  rcases hrun : action.run trainer.registry with ⟨result, registry⟩
  rw [KeepsFrom, hrun] at haction
  cases result with
  | ok value => exact .of_run (run_onRegistry hrun) haction
  | error fault =>
      rw [KeepsRegistry, EndsFrom, run_onRegistry hrun]
      exact haction

section Idle

variable (hregistry : invariant trainer.registry)
include hregistry

theorem keepsRegistry_lift {result : Except Fault β} {next : β → Action α}
    (hnext : ∀ value, KeepsRegistry invariant trainer (next value)) :
    KeepsRegistry invariant trainer ((liftM result : Action β) >>= next) := by
  cases result with
  | error fault => exact hregistry
  | ok value => exact hnext value

theorem keepsRegistry_onSurvey (action : Survey.Action α) :
    KeepsRegistry invariant trainer (onSurvey action) := by
  rcases hrun : action.run trainer.survey with ⟨result, survey⟩
  rw [KeepsRegistry, EndsFrom, run_onSurvey hrun]
  cases result <;> exact hregistry

theorem keepsRegistry_parseFrom (number : Nat) (paragraphs : List String) :
    KeepsRegistry invariant trainer (parseFrom number paragraphs) := by
  induction paragraphs generalizing trainer number with
  | nil => exact hregistry
  | cons paragraph rest ih =>
      apply EndsFrom.read
      apply keepsRegistry_lift hregistry
      intro depth
      apply keepsRegistry_lift hregistry
      intro parsed
      apply EndsFrom.modify
      apply EndsFrom.modify
      apply ih
      exact hregistry

theorem keepsRegistry_surveyCharts : KeepsRegistry invariant trainer surveyCharts := by
  have hcharts : KeepsRegistry invariant trainer (trainer.charts.forM fun chart =>
      onSurvey (Survey.record trainer.registry.grammar chart)) :=
    .forM (fun _ _ _ hstate => keepsRegistry_onSurvey hstate _) hregistry
  apply EndsFrom.read
  apply hcharts.bind
  intro _ middle hmiddle
  exact .modify (.read hmiddle)

end Idle

end Trainer

namespace Registry.Enduring

open Trainer

variable {invariant : Registry → Prop} (henduring : Enduring invariant) {trainer : Trainer}
  (hregistry : invariant trainer.registry)
include henduring hregistry

theorem keeps_registerProposal (proposal : Proposal) :
    KeepsRegistry invariant trainer (registerProposal proposal) := by
  have hkept := henduring.keeps_registerExperiment hregistry proposal.text
  rcases hrun : (registerExperiment proposal.text).run trainer.registry with ⟨result, registry⟩
  rw [KeepsFrom, hrun] at hkept
  have hattempt := run_onRegistry hrun
  apply EndsFrom.read
  cases result with
  | ok serial => exact .after_ok ((run_attempt hattempt).trans rfl) (.read (.modify hkept))
  | error fault =>
      cases fault
      case pattern => exact .after_ok ((run_attempt hattempt).trans rfl) hkept
      all_goals exact .after_error ((run_attempt hattempt).trans rfl) hkept

theorem keeps_registerAll (proposals : List Proposal) (summary : Summary) :
    KeepsRegistry invariant trainer (registerAll proposals summary) := by
  induction proposals generalizing trainer summary with
  | nil => exact hregistry
  | cons proposal rest ih =>
      apply (henduring.keeps_registerProposal hregistry proposal).bind
      intro found after hafter
      cases found with
      | none => exact ih hafter _
      | some id => exact ih hafter _

theorem keeps_runStrategies (strategies : List Strategy) (summary : Summary) :
    KeepsRegistry invariant trainer (runStrategies strategies summary) := by
  induction strategies generalizing trainer summary with
  | nil => exact hregistry
  | cons strategy rest ih =>
      have hproposed := henduring.keeps_of_storing hregistry
        (storing_propose strategy trainer.survey trainer.charts)
      apply EndsFrom.read
      apply EndsFrom.modify
      apply EndsFrom.bind (keepsRegistry_onRegistry (by exact hproposed))
      intro proposals middle hmiddle
      apply (henduring.keeps_registerAll hmiddle proposals summary).bind
      intro _ after hafter
      exact ih hafter _

theorem keeps_removeUnused {todo : List (Serial × Pattern)}
    (htodo : ∀ entry ∈ todo, trainer.registry.pattern? entry.1 = some entry.2 ∧
      entry.2.kind = .experimental) :
    KeepsRegistry invariant trainer (removeUnused todo) := by
  induction todo generalizing trainer with
  | nil => exact hregistry
  | cons entry rest ih =>
      obtain ⟨⟨hpattern, hkind⟩, hrest⟩ := List.forall_mem_cons.mp htodo
      unfold removeUnused
      apply EndsFrom.read
      split
      next => exact ih hregistry hrest
      next hused =>
        have hunused : trainer.registry.dependents entry.1 entry.2.id = [] := by
          simpa using hused
        apply EndsFrom.after_ok (run_onRegistry (run_unregister_of_unused hunused))
        apply EndsFrom.modify
        -- Removing a pattern leaves the ledger as it is, so the rest is still there.
        split
        next hregistered =>
          have hentry := mem_registered_of_isRegistered hpattern hregistered
          have hremoved := henduring.without hregistry hentry hkind hunused
          exact EndsFrom.bind (ih hremoved hrest) fun _ _ hafter => hafter
        next => exact EndsFrom.bind (ih hregistry hrest) fun _ _ hafter => hafter

theorem keeps_cullExperiments : KeepsRegistry invariant trainer cullExperiments := by
  apply EndsFrom.read
  apply keepsRegistry_lift hregistry
  intro kept
  apply henduring.keeps_removeUnused hregistry
  intro entry hentry
  have hsurveyed := (List.mem_filter.mp (mem_surveyed_of_mem_doomed hentry)).2
  have hkind : entry.2.kind = .experimental := by simp at hsurveyed; exact hsurveyed.1
  exact ⟨(mem_registered (mem_registered_of_mem_doomed hentry)).1, hkind⟩

theorem keeps_nameShapes (shapes : List (String × String)) :
    KeepsRegistry invariant trainer (nameShapes shapes) := by
  induction shapes generalizing trainer with
  | nil => exact hregistry
  | cons shape rest ih =>
      unfold nameShapes
      apply EndsFrom.read
      split
      next => exact ih hregistry
      next htaken =>
        rcases hrun : (experimentOfShape shape.2).run trainer.registry with ⟨result, registry⟩
        have hstores := (storing_experimentOfShape shape.2).onlyStores hrun
        have hasked := henduring.stores hregistry hstores
        cases result with
        | error fault => exact .after_error (run_onRegistry hrun) hasked
        | ok found =>
            apply EndsFrom.after_ok (run_onRegistry hrun)
            cases found with
            | none => exact ih hasked
            | some entry =>
                obtain ⟨hregistered, hkind⟩ := (run_experimentOfShape hrun).2 entry rfl
                rw [← hstores.registered_eq] at hregistered
                have hname : registry.named? shape.1 = none := by
                  have hfree : trainer.registry.named? shape.1 = none := by simpa using htaken
                  rw [hstores]
                  exact hfree
                have hnamed := henduring.named hasked hregistered hkind hname
                apply EndsFrom.after_ok (run_onRegistry (run_rename_of_free hname entry.1 entry.2
                  (some .derived)))
                apply EndsFrom.modify
                exact EndsFrom.bind (ih hnamed) fun _ _ hafter => hafter

/-- What endures the changes of training endures an iteration, whatever it is asked to do. -/
theorem trainIteration : invariant (trainIteration.run trainer).2.registry := by
  suffices hkept : KeepsRegistry invariant trainer Trainer.trainIteration by
    unfold KeepsRegistry EndsFrom at hkept
    split at hkept
    next hrun => rwa [hrun]
    next hrun => rwa [hrun]
  have hbegun : invariant trainer.begun.registry := hregistry
  refine .modify (.read (.modify (.modify (.modify (.modify (.read ?_))))))
  apply keepsRegistry_lift hbegun
  intro paragraphs
  apply EndsFrom.bind (keepsRegistry_parseFrom hbegun 1 paragraphs)
  intro _ parsed hparsed
  -- Entering a stage and noting an event leave the registry as it is.
  refine .modify (EndsFrom.bind (keepsRegistry_surveyCharts ?_) ?_)
  · exact hparsed
  intro _ surveyed hsurveyed
  refine .modify (.read (EndsFrom.bind (henduring.keeps_runStrategies ?_ _ _) ?_))
  · exact hsurveyed
  intro summary proposed hproposed
  refine .modify (EndsFrom.bind (henduring.keeps_cullExperiments ?_) ?_)
  · exact hproposed
  intro _ culled hculled
  refine .modify (EndsFrom.bind (henduring.keeps_nameShapes ?_ knownShapes) ?_)
  · exact hculled
  intro _ named hnamed
  exact .read (.modify (.pure hnamed))

end Registry.Enduring

end Motif
