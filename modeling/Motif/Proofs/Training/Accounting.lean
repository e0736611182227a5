import Motif.Proofs.Training.Iterating
import Motif.Proofs.Training.Journal
import Motif.Proofs.Training.Storing

/-!
# The account of an iteration

Every stage of an iteration notes what it does to the registry, so that the events of the iteration
can be replayed on the roll. What they add up to is what the summary says, and what has become of
the ids, kinds and names.
-/

namespace Motif

namespace Trainer

open Event Registry

variable {α β : Type} {stage : Stage} {trainer before middle state after : Trainer}
  {events later : List Event}

/-! ## Reports -/

/-- From one trainer to another exactly these events have been noted, and replaying them leads from
the one roll to the other. -/
structure Reports (before : Trainer) (events : List Event) (after : Trainer) : Prop where
  numbered : after.registry.Numbered
  replay : before.registry.roll.replay events = some after.registry.roll
  iteration_eq : after.iteration = before.iteration
  events_eq : after.events = (events.map fun event => (before.iteration, event)).reverse ++
    before.events

theorem reports_nil (hnumbered : trainer.registry.Numbered) : trainer.Reports [] trainer :=
  ⟨hnumbered, rfl, rfl, rfl⟩

namespace Reports

theorem trans (hreports : before.Reports events middle) (hlater : middle.Reports later after) :
    before.Reports (events ++ later) after where
  numbered := hlater.numbered
  replay := Roll.replay_append hreports.replay hlater.replay
  iteration_eq := hlater.iteration_eq.trans hreports.iteration_eq
  events_eq := by
    rw [hlater.events_eq, hreports.events_eq, hreports.iteration_eq]
    simp

theorem enter (hreports : before.Reports events after) (stage : Stage) :
    before.Reports events { after with stage } :=
  { hreports with }

/-- Storing changes nothing that is reported. -/
theorem stores (hreports : before.Reports events after) {registry : Registry}
    (hstores : after.registry.OnlyStores registry) :
    before.Reports events { after with registry } where
  numbered := hstores.numbered hreports.numbered
  replay := by rw [hreports.replay, ← hstores.roll_eq]
  iteration_eq := hreports.iteration_eq
  events_eq := hreports.events_eq

/-- The last event tells of what has happened to the registry. -/
theorem note (hreports : before.Reports events after) {registry : Registry} {event : Event}
    (hnumbered : registry.Numbered) (hnote : after.registry.roll.note event = some registry.roll) :
    before.Reports (events ++ [event])
      { after with registry, events := (after.iteration, event) :: after.events } :=
  hreports.trans
    { numbered := hnumbered
      replay := Roll.replay_cons_iff.mpr ⟨_, hnote, rfl⟩
      iteration_eq := rfl
      events_eq := rfl }

section Balance

variable (hreports : before.Reports events after) (hnumbered : before.registry.Numbered)
include hreports hnumbered

theorem balances : before.registry.roll.Balances events after.registry.roll :=
  hnumbered.sound_roll.balances hreports.replay

theorem ids_eq : after.registry.ids =
    (before.registry.ids ++ newIds events).filter fun id => id ∉ culledIds events := by
  rw [← hreports.numbered.coherent.ids_roll, ← hnumbered.coherent.ids_roll]
  exact (hreports.balances hnumbered).ids_eq

end Balance

end Reports

/-- Started in a state, the operation may fail. What has been reported since another state when it
ends with a value has a property, and the operation has reported what belongs to one stage. -/
def ReportingFrom (before : Trainer) (stage : Stage) (state : Trainer) (action : Action α)
    (property : α → List Event → Trainer → Prop) : Prop :=
  EndsFrom (fun _ => True) state action fun value after =>
    ∃ events, before.Reports events after ∧ (∀ event ∈ events, event.stage = stage) ∧
      property value events after

/-- The operation reports what belongs to one stage, with a property. -/
abbrev Reporting (trainer : Trainer) (stage : Stage) (action : Action α)
    (property : α → List Event → Trainer → Prop) : Prop :=
  trainer.ReportingFrom stage trainer action property

namespace Reports

variable {property : α → List Event → Trainer → Prop} (hreports : before.Reports events state)
  (hstages : ∀ event ∈ events, event.stage = stage)
include hreports hstages

theorem pure {value : α} (hproperty : property value events state) :
    before.ReportingFrom stage state (pure value) property :=
  ⟨events, hreports, hstages, hproperty⟩

/-- What follows reports more. -/
theorem proceed {action : Action α} {other : α → List Event → Trainer → Prop}
    (haction : state.Reporting stage action other)
    (hproperty : ∀ value later after, other value later after →
      property value (events ++ later) after) :
    before.ReportingFrom stage state action property :=
  haction.mono fun value after ⟨later, hlater, hlaterStages, hother⟩ =>
    ⟨events ++ later, hreports.trans hlater, List.forall_mem_append.mpr ⟨hstages, hlaterStages⟩,
      hproperty value later after hother⟩

end Reports

/-- An operation on the registry changes nothing else. -/
theorem ends_onRegistry (trainer : Trainer) (action : Registry.Action α) :
    EndsFrom (fun _ => True) trainer (onRegistry action) fun value after =>
      ∃ registry, action.run trainer.registry = (.ok value, registry) ∧
        after = { trainer with registry } := by
  rcases hrun : action.run trainer.registry with ⟨result, registry⟩
  rw [EndsFrom, run_onRegistry hrun]
  cases result with
  | ok value => exact ⟨registry, rfl, rfl⟩
  | error fault => trivial

theorem ends_onSurvey (trainer : Trainer) (action : Survey.Action α) :
    EndsFrom (fun _ => True) trainer (onSurvey action) fun _ after =>
      ∃ survey, after = { trainer with survey } := by
  rcases hrun : action.run trainer.survey with ⟨result, survey⟩
  rw [EndsFrom, run_onSurvey hrun]
  cases result with
  | ok value => exact ⟨survey, rfl⟩
  | error fault => trivial

/-! ## Parsing and surveying -/

theorem reporting_parseFrom (hnumbered : trainer.registry.Numbered) (number : Nat)
    (paragraphs : List String) :
    trainer.Reporting .parse (parseFrom number paragraphs) fun _ _ _ => True := by
  induction paragraphs generalizing trainer number with
  | nil => exact (reports_nil hnumbered).pure (by simp) trivial
  | cons paragraph rest ih =>
      unfold parseFrom
      refine .read (.lift_of_fails trivial fun depth _ => .lift_of_fails trivial fun parsed _ => ?_)
      refine .modify (.modify ?_)
      apply Reports.proceed
      · exact { (reports_nil hnumbered).note hnumbered rfl with }
      · exact List.forall_mem_singleton.mpr rfl
      · apply ih
        exact hnumbered
      · exact fun _ _ _ _ => trivial

theorem reporting_surveyCharts (hnumbered : trainer.registry.Numbered) :
    trainer.Reporting .survey surveyCharts fun _ _ after =>
      after.surveyedUntil = after.registry.nextId := by
  have hcharts : EndsFrom (fun _ => True) trainer
      (trainer.charts.forM fun chart => onSurvey (Survey.record trainer.registry.grammar chart))
      fun _ after => trainer.Reports [] after := by
    refine EndsFrom.forM (fun chart _ state hstate => ?_) (reports_nil hnumbered)
    refine (ends_onSurvey state _).mono ?_
    rintro _ _ ⟨survey, rfl⟩
    exact { hstate with }
  refine .read (hcharts.bind fun _ middle hmiddle => .modify (.read ?_))
  exact ⟨_, { hmiddle.note hmiddle.numbered rfl with }, by simp [Event.stage], rfl⟩

/-! ## Proposing -/

/-- What has been proposed since a trainer has taken its last survey: in an empty registry nothing
new can be. -/
structure Proposes (before : Trainer) (events : List Event) (after : Trainer) : Prop where
  surveyedUntil_eq : after.surveyedUntil = before.surveyedUntil
  newIds_eq_nil : before.registry.ids = [] → newIds events = []

theorem Proposes.trans (hproposes : before.Proposes events middle)
    (hreports : before.Reports events middle) (hnumbered : before.registry.Numbered)
    (hlater : middle.Proposes later after) : before.Proposes (events ++ later) after where
  surveyedUntil_eq := hlater.surveyedUntil_eq.trans hproposes.surveyedUntil_eq
  newIds_eq_nil hnone := by
    have hnew := hproposes.newIds_eq_nil hnone
    have hids := hreports.ids_eq hnumbered
    rw [hnone, hnew] at hids
    rw [newIds_append, hnew, hlater.newIds_eq_nil hids]
    rfl

/-- A summary is carried on with what has been proposed. -/
structure Tallies (summary : Summary) (events : List Event) (result : Summary) : Prop where
  nodup : summary.proposed.Nodup → result.proposed.Nodup
  subset : summary.proposed ⊆ result.proposed
  newIds_subset : newIds events ⊆ result.proposed
  rejected_eq : result.rejected = summary.rejected + rejections events

section Tallies

variable {summary result last : Summary}

/-- Other stages propose nothing. -/
theorem tallies_of_stages (hstages : ∀ event ∈ events, event.stage ≠ .propose)
    (summary : Summary) : Tallies summary events summary where
  nodup := id
  subset := List.Subset.refl _
  newIds_subset := by
    rw [newIds_eq_nil hstages]
    exact List.nil_subset _
  rejected_eq := by
    rw [rejections_eq_zero hstages]
    rfl

theorem Tallies.trans (htallies : Tallies summary events result)
    (hlater : Tallies result later last) : Tallies summary (events ++ later) last where
  nodup hnodup := hlater.nodup (htallies.nodup hnodup)
  subset := List.Subset.trans htallies.subset hlater.subset
  newIds_subset := by
    rw [newIds_append]
    exact List.append_subset.mpr
      ⟨List.Subset.trans htallies.newIds_subset hlater.subset, hlater.newIds_subset⟩
  rejected_eq := by
    rw [hlater.rejected_eq, htallies.rejected_eq, rejections_append, Nat.add_assoc]

theorem tallies_refused (hnew : newIds events ⊆ []) (hrejections : rejections events = 1) :
    Tallies summary events { summary with rejected := summary.rejected + 1 } where
  nodup := id
  subset := List.Subset.refl _
  newIds_subset := List.Subset.trans hnew (List.nil_subset _)
  rejected_eq := by rw [hrejections]

/-- The id of a proposal is listed once. -/
theorem tallies_accepted {id : Int} (hnew : newIds events ⊆ [id])
    (hrejections : rejections events = 0) :
    Tallies summary events (if summary.proposed.contains id then summary
      else { summary with proposed := summary.proposed ++ [id] }) := by
  have hrejected : summary.rejected = summary.rejected + rejections events := by
    rw [hrejections]
    rfl
  split
  next hlisted =>
    refine ⟨fun hnodup => hnodup, List.Subset.refl _, List.Subset.trans hnew ?_, hrejected⟩
    exact List.cons_subset.mpr ⟨List.contains_iff_mem.mp hlisted, List.nil_subset _⟩
  next hunlisted =>
    refine ⟨fun hnodup => List.nodup_append.mpr ⟨hnodup, List.nodup_singleton _, ?_⟩,
      List.subset_append_left _ _, List.Subset.trans hnew (List.subset_append_right _ _), hrejected⟩
    rintro other hother _ hid rfl
    obtain rfl := List.mem_singleton.mp hid
    exact hunlisted (List.contains_iff_mem.mpr hother)

end Tallies

theorem reporting_registerProposal (hnumbered : trainer.registry.Numbered) (proposal : Proposal) :
    trainer.Reporting .propose (registerProposal proposal) fun found events after =>
      trainer.Proposes events after ∧ newIds events ⊆ found.toList ∧
        rejections events = if found.isNone then 1 else 0 := by
  rcases hrun : (registerExperiment proposal.text).run trainer.registry with ⟨result, registry⟩
  unfold registerProposal
  refine .read ?_
  cases result with
  | ok serial =>
      refine .after_ok ((run_attempt (run_onRegistry hrun)).trans rfl) (.read (.modify ?_))
      rcases registerExperiment_cases hrun with ⟨hstores, hregistered⟩ | hadds
      · obtain ⟨pattern, hpattern⟩ := hregistered serial rfl
        have hfound : registry.pattern? serial = some pattern := by
          rw [hstores]
          exact (mem_registered hpattern).1
        have hsize : registry.size = trainer.registry.size := by
          rw [hstores]
          rfl
        have hid : pattern.id ∈ registry.roll.ids := by
          rw [hstores.roll_eq, hnumbered.coherent.ids_roll]
          exact List.mem_map_of_mem (hnumbered.coherent.mem_entries_of_registered hpattern)
        have hnote : registry.roll.note (.patternProposed proposal.text proposal.strategy
          proposal.reason pattern.id false) = some registry.roll := if_pos hid
        simp only [hfound, hsize, Option.map_some, Option.getD_some, Nat.lt_irrefl, decide_false]
        apply Reports.pure (((reports_nil hnumbered).stores hstores).note
          (hstores.numbered hnumbered) hnote)
        · exact List.forall_mem_singleton.mpr rfl
        · exact ⟨⟨rfl, fun _ => rfl⟩, List.nil_subset _, rfl⟩
      · obtain ⟨pattern, hfound, hid⟩ := hadds.pattern?_eq rfl
        have hnote : trainer.registry.roll.note (.patternProposed proposal.text proposal.strategy
            proposal.reason trainer.registry.nextId true) = some registry.roll := by
          rw [hadds.roll_eq hnumbered]
          exact if_pos rfl
        simp only [hfound, hid, hadds.size_eq, Option.map_some, Option.getD_some, Nat.lt_succ_self,
          decide_true]
        apply Reports.pure ((reports_nil hnumbered).note (hadds.numbered hnumbered) hnote)
        · exact List.forall_mem_singleton.mpr rfl
        · exact ⟨⟨rfl, fun hnone => absurd hnone hadds.ids_ne_nil⟩, List.Subset.refl _, rfl⟩
  | error fault =>
      cases fault
      case pattern fault =>
        refine .after_ok ((run_attempt (run_onRegistry hrun)).trans rfl) ?_
        have hstores := ((registerExperiment_cases hrun).resolve_right fun hadds =>
          hadds.not_refused fault rfl).1
        apply Reports.pure (((reports_nil hnumbered).stores hstores).note
          (hstores.numbered hnumbered) rfl)
        · exact List.forall_mem_singleton.mpr rfl
        · exact ⟨⟨rfl, fun _ => rfl⟩, List.nil_subset _, rfl⟩
      all_goals exact .after_error ((run_attempt (run_onRegistry hrun)).trans rfl) trivial

theorem reporting_registerAll (hnumbered : trainer.registry.Numbered) (proposals : List Proposal)
    (summary : Summary) :
    trainer.Reporting .propose (registerAll proposals summary) fun result events after =>
      trainer.Proposes events after ∧ Tallies summary events result := by
  induction proposals generalizing trainer summary with
  | nil =>
      exact (reports_nil hnumbered).pure (by simp)
        ⟨⟨rfl, fun _ => rfl⟩, tallies_of_stages (by simp) summary⟩
  | cons proposal rest ih =>
      unfold registerAll
      refine EndsFrom.bind (reporting_registerProposal hnumbered proposal) ?_
      rintro found middle ⟨events, hreports, hstages, hproposes, hnew, hrejections⟩
      have hrest (next : Summary) (htallies : Tallies summary events next) :
          trainer.ReportingFrom .propose middle (registerAll rest next) fun result events after =>
            trainer.Proposes events after ∧ Tallies summary events result := by
        refine Reports.proceed hreports hstages (ih hreports.numbered next) ?_
        rintro result later after ⟨hlater, hlaterTallies⟩
        exact ⟨hproposes.trans hreports hnumbered hlater, htallies.trans hlaterTallies⟩
      cases found with
      | none => exact hrest _ (tallies_refused hnew hrejections)
      | some id => exact hrest _ (tallies_accepted hnew hrejections)

theorem reporting_runStrategies (hnumbered : trainer.registry.Numbered)
    (strategies : List Strategy) (summary : Summary) :
    trainer.Reporting .propose (runStrategies strategies summary) fun result events after =>
      trainer.Proposes events after ∧ Tallies summary events result := by
  induction strategies generalizing trainer summary with
  | nil =>
      exact (reports_nil hnumbered).pure (by simp)
        ⟨⟨rfl, fun _ => rfl⟩, tallies_of_stages (by simp) summary⟩
  | cons strategy rest ih =>
      unfold runStrategies
      refine .read (.modify (EndsFrom.bind (ends_onRegistry _ _) ?_))
      rintro proposals asked ⟨registry, hrun, hafter⟩
      have hstores := (storing_propose strategy trainer.survey trainer.charts).onlyStores hrun
      have hasked : trainer.Reports [] asked := by
        subst hafter
        exact { (reports_nil hnumbered).stores hstores with }
      have hquiet : trainer.Proposes [] asked := by
        subst hafter
        exact ⟨rfl, fun _ => rfl⟩
      refine EndsFrom.bind (reporting_registerAll hasked.numbered proposals summary) ?_
      rintro next middle ⟨events, hreports, hstages, hproposes, htallies⟩
      have hproposed := hquiet.trans hasked hnumbered hproposes
      have hsofar := hasked.trans hreports
      refine Reports.proceed hsofar hstages (ih hsofar.numbered next) ?_
      rintro result later after ⟨hlater, hlaterTallies⟩
      exact ⟨hproposed.trans hsofar hnumbered hlater, htallies.trans hlaterTallies⟩

/-! ## Culling -/

/-- Removing experiments one after the other can be replayed. -/
theorem replay_withoutAll {registry : Registry} (hnumbered : registry.Numbered)
    (score : Pattern → Int) {gone : List (Serial × Pattern)}
    (hlatest : gone.Pairwise fun first second => second.2.id < first.2.id)
    (hgone : ∀ entry ∈ gone, entry ∈ registry.registered ∧ entry.2.kind = .experimental) :
    (registry.withoutAll gone).Numbered ∧
      registry.roll.replay (gone.map fun entry => .patternCulled entry.2.id (score entry.2)) =
        some (registry.withoutAll gone).roll := by
  induction gone generalizing registry with
  | nil => exact ⟨hnumbered, rfl⟩
  | cons first rest ih =>
      rw [List.pairwise_cons] at hlatest
      obtain ⟨⟨hregistered, hkind⟩, hrest⟩ := List.forall_mem_cons.mp hgone
      have hleft := mem_registered_without_of_lt hregistered (fun entry hentry =>
        (hrest entry hentry).1) hlatest.1
      obtain ⟨hafter, hreplay⟩ := ih (hnumbered.without first.1 first.2) hlatest.2
        fun entry hentry => ⟨hleft entry hentry, (hrest entry hentry).2⟩
      have hexperiment : registry.roll.HasExperiment first.2.id :=
        roll_hasExperiment_iff.mpr ⟨first.2, mem_patterns_of_registered hregistered, rfl, hkind⟩
      refine ⟨hafter, Roll.replay_cons_iff.mpr ⟨_, if_pos hexperiment, ?_⟩⟩
      rw [← hnumbered.coherent.roll_without hregistered]
      exact hreplay

theorem reporting_cullExperiments (hnumbered : trainer.registry.Numbered) :
    trainer.Reporting .cull cullExperiments fun ids events _ =>
      ids = culledIds events ∧ ∀ id ∈ ids,
        id < if trainer.surveyedUntil = 0 then trainer.registry.nextId
          else trainer.surveyedUntil := by
  refine .read (.lift_of_fails trivial fun kept _ => ?_)
  have hsurveyed (entry : Serial × Pattern) (hentry : entry ∈ trainer.doomed kept) :
      entry ∈ trainer.registry.registered ∧ entry.2.kind = .experimental ∧
        entry.2.id < if trainer.surveyedUntil = 0 then trainer.registry.nextId
          else trainer.surveyedUntil := by
    simpa [surveyedExperiments] using mem_surveyed_of_mem_doomed hentry
  have hlatest := pairwise_doomed hnumbered.coherent kept
  have hsublist := unused_sublist trainer.registry (trainer.doomed kept)
  have hgone (entry : Serial × Pattern)
      (hentry : entry ∈ trainer.registry.unused (trainer.doomed kept)) :=
    hsurveyed entry (hsublist.subset hentry)
  obtain ⟨hafter, hreplay⟩ := replay_withoutAll hnumbered (score trainer.survey)
    (hlatest.sublist hsublist) fun entry hentry =>
      ⟨(hgone entry hentry).1, (hgone entry hentry).2.1⟩
  refine .of_run (run_removeUnused hnumbered.coherent hlatest fun entry hentry =>
    (hsurveyed entry hentry).1) ⟨_, ⟨hafter, hreplay, rfl, ?_⟩, ?_, ?_, ?_⟩
  · simp [culled]
  · exact List.forall_mem_map.mpr fun _ _ => rfl
  · rw [culledIds, List.filterMap_map]
    exact (congrFun List.filterMap_eq_map _).symm
  · exact List.forall_mem_map.mpr fun entry hentry => (hgone entry hentry).2.2

/-! ## Naming -/

theorem reporting_nameShapes (hnumbered : trainer.registry.Numbered)
    (shapes : List (String × String)) :
    trainer.Reporting .name (nameShapes shapes) fun _ _ _ => True := by
  induction shapes generalizing trainer with
  | nil => exact (reports_nil hnumbered).pure (by simp) trivial
  | cons shape rest ih =>
      unfold nameShapes
      refine .read ?_
      split
      next => exact ih hnumbered
      next htaken =>
        refine EndsFrom.bind (ends_onRegistry trainer _) ?_
        rintro found _ ⟨registry, hrun, rfl⟩
        obtain ⟨hstores, hfound⟩ := run_experimentOfShape hrun
        have hasked := (reports_nil hnumbered).stores hstores
        cases found with
        | none => exact hasked.proceed (by simp) (ih hasked.numbered) fun _ _ _ _ => trivial
        | some entry =>
            obtain ⟨hregistered, hkind⟩ := hfound entry rfl
            rw [← hstores.registered_eq] at hregistered
            have hname : registry.named? shape.1 = none := by
              have hfree : trainer.registry.named? shape.1 = none := by simpa using htaken
              rw [hstores]
              exact hfree
            have hnote : registry.roll.note (.patternNamed entry.2.id shape.1) =
                some (registry.renamed entry.1 entry.2 shape.1 (some .derived)).roll := by
              rw [hasked.numbered.coherent.roll_renamed hregistered]
              refine if_pos (roll_hasExperiment_iff.mpr ?_)
              exact ⟨entry.2, mem_patterns_of_registered hregistered, rfl, hkind⟩
            have hnamed := hasked.note (hasked.numbered.renamed (mem_registered hregistered).1
              shape.1 (some .derived)) hnote
            refine .after_ok (run_onRegistry (run_rename_of_free hname entry.1 entry.2
              (some .derived))) (.modify (EndsFrom.bind (ih hnamed.numbered) ?_))
            rintro serials after ⟨later, hlater, hstages, -⟩
            exact (hnamed.trans hlater).pure (List.forall_mem_cons.mpr ⟨rfl, hstages⟩) trivial

/-! ## Iterations -/

/-- What the events of an iteration tell of a registry and what they have to do with its summary. -/
structure Accounts (before : Registry) (events : List Event) (summary : Summary)
    (after : Registry) : Prop where
  numbered : after.Numbered
  replay : before.roll.replay events = some after.roll
  /-- The new ids are the next ones, in the order of the events. -/
  newIds_eq : newIds events =
    (List.range (newIds events).length).map fun offset : Nat => before.nextId + offset
  nextId_eq : after.nextId = before.nextId + (newIds events).length
  ids_eq : after.ids = (before.ids ++ newIds events).filter fun id => id ∉ culledIds events
  culled_eq : summary.culled = culledIds events
  culled_experimental : ∀ id ∈ culledIds events,
    ∃ pattern ∈ before.patterns, pattern.id = id ∧ pattern.kind = .experimental
  culled_not_new : ∀ id ∈ culledIds events, id ∉ newIds events
  nodup_proposed : summary.proposed.Nodup
  newIds_subset : newIds events ⊆ summary.proposed
  rejected_eq : summary.rejected = rejections events
  patterns_eq : summary.patterns = after.size
  /-- What is not named has kept its kind and its name, or it is a new experiment without one. -/
  kept : ∀ pattern ∈ after.patterns, (∀ name, (pattern.id, name) ∉ namings events) →
    (∃ earlier ∈ before.patterns, earlier.id = pattern.id ∧ earlier.kind = pattern.kind ∧
      earlier.name = pattern.name) ∨
    pattern.id ∈ newIds events ∧ pattern.kind = .experimental ∧ pattern.name = none
  /-- What is named has been an experiment, and is a derived pattern now. -/
  named : ∀ id name, (id, name) ∈ namings events →
    ((∃ pattern ∈ before.patterns, pattern.id = id ∧ pattern.kind = .experimental) ∨
      id ∈ newIds events) ∧
    ∃ pattern ∈ after.patterns, pattern.id = id ∧ pattern.kind = .derived ∧
      pattern.name = some name

theorem accounts_of_reports {summary tallied : Summary} {culled : List Int}
    (hnumbered : before.registry.Numbered) (hreports : before.Reports events after)
    (htallies : Tallies summary events tallied) (hproposed : summary.proposed = [])
    (hrejected : summary.rejected = 0) (hculled : culledIds events = culled)
    (hnew : ∀ id ∈ culled, id ∉ newIds events) (named : List String) :
    Accounts before.registry events
      { tallied with culled, named, patterns := after.registry.size } after.registry := by
  subst hculled
  have hbalances := hreports.balances hnumbered
  exact {
    numbered := hreports.numbered
    replay := hreports.replay
    newIds_eq := hbalances.newIds_eq
    nextId_eq := hbalances.nextId_eq
    ids_eq := hreports.ids_eq hnumbered
    culled_eq := rfl
    culled_experimental := fun id hid =>
      roll_hasExperiment_iff.mp ((hbalances.culled id hid).resolve_right (hnew id hid))
    culled_not_new := hnew
    nodup_proposed := htallies.nodup (hproposed ▸ List.nodup_nil)
    newIds_subset := htallies.newIds_subset
    rejected_eq := by rw [htallies.rejected_eq, hrejected, Nat.zero_add]
    patterns_eq := rfl
    kept := by
      intro pattern hpattern hunnamed
      rcases hbalances.kept pattern.standing (List.mem_map_of_mem hpattern) hunnamed with
        hearlier | ⟨hid, hfresh⟩
      · obtain ⟨earlier, hearlier, hsame⟩ := List.mem_map.mp hearlier
        exact .inl ⟨earlier, hearlier, congrArg Standing.id hsame, congrArg Standing.kind hsame,
          congrArg Standing.name hsame⟩
      · exact .inr ⟨hid, congrArg Standing.kind hfresh, congrArg Standing.name hfresh⟩
    named := by
      intro id name hid
      obtain ⟨hexperiment, hderived⟩ := hbalances.named id name hid
      obtain ⟨pattern, hpattern, hstanding⟩ := List.mem_map.mp hderived
      exact ⟨hexperiment.imp_left roll_hasExperiment_iff.mp, pattern, hpattern,
        congrArg Standing.id hstanding, congrArg Standing.kind hstanding,
        congrArg Standing.name hstanding⟩ }

/-- Experiments are culled only if they have been known to the survey, and in an empty registry
nothing new can be proposed. So what is culled is not new. -/
theorem culled_not_new {surveyed proposed : Trainer} {proposals : List Event}
    (hnumbered : surveyed.registry.Numbered) (hreports : surveyed.Reports proposals proposed)
    (hproposes : surveyed.Proposes proposals proposed)
    (hlimit : surveyed.surveyedUntil = surveyed.registry.nextId) {id : Int}
    (hlt : id < if proposed.surveyedUntil = 0 then proposed.registry.nextId
      else proposed.surveyedUntil) : id ∉ newIds proposals := by
  intro hid
  rw [hproposes.surveyedUntil_eq, hlimit] at hlt
  split at hlt
  next hzero =>
    have hnone : surveyed.registry.ids = [] := by
      refine List.eq_nil_iff_forall_not_mem.mpr fun other hother => ?_
      obtain ⟨⟨other, serial⟩, hentry, rfl⟩ := List.mem_map.mp hother
      have hbounds := hnumbered.bounded other serial hentry
      omega
    rw [hproposes.newIds_eq_nil hnone] at hid
    cases hid
  next =>
    rw [(hreports.balances hnumbered).newIds_eq] at hid
    obtain ⟨offset, -, rfl⟩ := List.mem_map.mp hid
    have hnextId : surveyed.registry.roll.nextId = surveyed.registry.nextId := rfl
    omega

/-- The trainer in its next iteration, of which nothing has been noted yet. -/
def started (trainer : Trainer) : Trainer :=
  { trainer with iteration := trainer.iteration + 1 }

theorem reports_begun (hnumbered : trainer.registry.Numbered) :
    trainer.started.Reports [.iterationStarted trainer.registry.size] trainer.begun :=
  have hstarted : trainer.started.Reports [] trainer.started := reports_nil hnumbered
  { hstarted.note hnumbered rfl with }

/-- The events of an iteration: one stage proposes, and after it one stage culls. -/
structure Staged (opening proposals culls closing : List Event) : Prop where
  opening : ∀ event ∈ opening, event.stage ≠ .propose ∧ event.stage ≠ .cull
  proposals : ∀ event ∈ proposals, event.stage = .propose
  culls : ∀ event ∈ culls, event.stage = .cull
  closing : ∀ event ∈ closing, event.stage ≠ .propose ∧ event.stage ≠ .cull

namespace Staged

variable {opening proposals culls closing : List Event}
  (hstaged : Staged opening proposals culls closing)
include hstaged

theorem culls_ne : ∀ event ∈ culls, event.stage ≠ .propose := fun event hevent => by
  simp [hstaged.culls event hevent]

theorem proposals_ne : ∀ event ∈ proposals, event.stage ≠ .cull := fun event hevent => by
  simp [hstaged.proposals event hevent]

theorem newIds_eq : newIds (opening ++ proposals ++ culls ++ closing) = newIds proposals := by
  rw [newIds_append, newIds_append, newIds_append, newIds_eq_nil hstaged.culls_ne,
    newIds_eq_nil fun event hevent => (hstaged.opening event hevent).1,
    newIds_eq_nil fun event hevent => (hstaged.closing event hevent).1]
  simp

theorem culledIds_eq : culledIds (opening ++ proposals ++ culls ++ closing) = culledIds culls := by
  rw [culledIds_append, culledIds_append, culledIds_append, culledIds_eq_nil hstaged.proposals_ne,
    culledIds_eq_nil fun event hevent => (hstaged.opening event hevent).2,
    culledIds_eq_nil fun event hevent => (hstaged.closing event hevent).2]
  simp

theorem tallies {summary result : Summary} (htallies : Tallies summary proposals result) :
    Tallies summary (opening ++ proposals ++ culls ++ closing) result :=
  have hopened := tallies_of_stages (fun event hevent => (hstaged.opening event hevent).1) summary
  have hculled := tallies_of_stages hstaged.culls_ne result
  have hclosed := tallies_of_stages (fun event hevent => (hstaged.closing event hevent).1) result
  ((hopened.trans htallies).trans hculled).trans hclosed

end Staged

theorem ends_trainIteration (hnumbered : trainer.registry.Numbered) :
    EndsFrom (fun _ => True) trainer trainIteration fun summary after =>
      ∃ events, after.events = (events.map fun event => (trainer.iteration + 1, event)).reverse ++
          trainer.events ∧
        Accounts trainer.registry events summary after.registry := by
  have hbegun := reports_begun hnumbered
  unfold trainIteration
  refine .modify (.read (.modify (.modify (.modify (.modify (.read (.lift_of_fails trivial
    fun paragraphs _ => ?_)))))))
  refine EndsFrom.bind (reporting_parseFrom hbegun.numbered 1 paragraphs) ?_
  rintro _ parsed ⟨parsing, hparsed, hparsing, -⟩
  have hsurvey := (hbegun.trans hparsed).enter .survey
  refine .modify (EndsFrom.bind (reporting_surveyCharts hsurvey.numbered) ?_)
  rintro _ surveyed ⟨surveying, hsurveyed, hsurveying, hlimit⟩
  have hpropose := (hsurvey.trans hsurveyed).enter .propose
  refine .modify (.read (EndsFrom.bind (reporting_runStrategies hpropose.numbered _ _) ?_))
  rintro tallied proposed ⟨proposals, hproposed, hproposing, hproposes, htallies⟩
  have hcull := (hpropose.trans hproposed).enter .cull
  refine .modify (EndsFrom.bind (reporting_cullExperiments hcull.numbered) ?_)
  rintro ids culled ⟨culls, hculled, hculling, rfl, hlt⟩
  have hname := (hcull.trans hculled).enter .name
  refine .modify (EndsFrom.bind (reporting_nameShapes hname.numbered knownShapes) ?_)
  rintro serials named ⟨naming, hnamed, hnaming, -⟩
  refine .read (.modify (.pure ?_))
  have hclosed (last : Event)
      (hnote : named.registry.roll.note last = some named.registry.roll) :=
    hname.trans (hnamed.note hnamed.numbered hnote)
  have hstaged (last : Event) (hlast : last.stage = .done) :
      Staged ([iterationStarted trainer.registry.size] ++ parsing ++ surveying) proposals culls
        (naming ++ [last]) := by
    refine ⟨List.forall_mem_append.mpr ⟨List.forall_mem_append.mpr ⟨?_, fun event hevent => ?_⟩,
      fun event hevent => ?_⟩, hproposing, hculling,
      List.forall_mem_append.mpr ⟨fun event hevent => ?_, List.forall_mem_singleton.mpr ?_⟩⟩
    · exact List.forall_mem_singleton.mpr ⟨nofun, nofun⟩
    · simp [hparsing event hevent]
    · simp [hsurveying event hevent]
    · simp [hnaming event hevent]
    · simp [hlast]
  have hstarted : trainer.started.registry.Numbered := hnumbered
  refine ⟨_, (hclosed _ rfl).events_eq, accounts_of_reports hstarted (hclosed _ rfl)
    ((hstaged _ rfl).tallies htallies) rfl rfl (hstaged _ rfl).culledIds_eq (fun id hid => ?_) _⟩
  rw [(hstaged _ rfl).newIds_eq]
  exact culled_not_new hpropose.numbered hproposed hproposes hlimit (hlt id hid)

/-- Whatever a completed iteration does, its events and its summary account for it. -/
theorem accounts_trainIteration {summary : Summary} (hnumbered : trainer.registry.Numbered)
    (hrun : trainIteration.run trainer = (.ok summary, after)) :
    ∃ events, after.events = (events.map fun event => (trainer.iteration + 1, event)).reverse ++
        trainer.events ∧
      Accounts trainer.registry events summary after.registry :=
  (ends_trainIteration hnumbered).of_ok hrun

/-- With the settings that hold if nothing is said, an iteration on one paragraph is completed. -/
theorem accounts_trainIteration_default : ∃ trainer loaded summary after,
    create {} {} = .ok trainer ∧ (loadParagraphs ["ab ab"]).run trainer = (.ok ⟨⟩, loaded) ∧
      loaded.registry.Numbered ∧ trainIteration.run loaded = (.ok summary, after) ∧
        ∃ events, after.events =
            (events.map fun event => (loaded.iteration + 1, event)).reverse ++ loaded.events ∧
          Accounts loaded.registry events summary after.registry := by
  obtain ⟨trainer, hcreate⟩ : ∃ trainer, create {} {} = .ok trainer := ⟨_, rfl⟩
  obtain ⟨registry, hloaded, hsteady, -, hnextId⟩ :=
    exists_loadParagraphs isUsable_default hcreate ["ab ab"]
  have hroom : room { trainer with registry, paragraphs := ["ab ab"] } = 104 := by
    obtain rfl := Except.ok.inj hcreate
    rfl
  -- An iteration fails only if an id becomes too long, and there are not as many ids as that.
  have hbound : usedIds { trainer with registry, paragraphs := ["ab ab"] } +
      room { trainer with registry, paragraphs := ["ab ab"] } ≤ (229 : Nat) := by
    have hle : registry.nextId.toNat + 104 ≤ 229 := by omega
    rw [hroom]
    exact Nat.cast_le.mpr hle
  obtain ⟨summary, after, hrun, -⟩ := (hsteady.ends_trainIteration hbound).exists_ok
    fun ⟨hlong, hused⟩ => hlong <| by
      have hle := Nat.cast_le.mp hused
      unfold HasShortIds Registry.HasShortIds
      omega
  have hnumbered : registry.Numbered := hsteady.tame.numbered
  exact ⟨trainer, _, summary, after, hcreate, hloaded, hnumbered, hrun,
    accounts_trainIteration hnumbered hrun⟩

end Trainer

end Motif
