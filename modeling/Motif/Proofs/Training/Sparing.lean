import Motif.Proofs.Training.Enduring

/-!
# What culling spares

A survey notes how far the counter of ids has come, and culling leaves alone what has been
registered since. The counter never goes back, so a pattern with a smaller id was known to the
survey. A survey of a registry in which nothing has ever been registered is the exception: its note
is zero, which is taken to mean that there has been no survey.
-/

namespace Motif

namespace Registry

variable {before registry after : Registry} {serial : Serial} {pattern : Pattern}

/-- A pattern is registered under the serial. -/
def Enrolls (registry : Registry) (serial : Serial) : Prop :=
  serial ∈ registry.registered.map Prod.fst

instance (registry : Registry) (serial : Serial) : Decidable (registry.Enrolls serial) :=
  inferInstanceAs (Decidable (serial ∈ registry.registered.map Prod.fst))

/-- Since another registry the counter has not gone back, and what is registered under an id that it
had passed then was registered then. -/
structure Since (before after : Registry) : Prop where
  numbered : after.Numbered
  nextId_le : before.nextId ≤ after.nextId
  enrolls : ∀ entry ∈ after.registered, entry.2.id < before.nextId → before.Enrolls entry.1

theorem Numbered.since (hnumbered : registry.Numbered) : registry.Since registry where
  numbered := hnumbered
  nextId_le := Int.le_refl _
  enrolls _ hentry _ := List.mem_map_of_mem hentry

namespace Since

variable (hsince : before.Since registry)
include hsince

theorem stores (hstores : registry.OnlyStores after) : before.Since after where
  numbered := hstores.numbered hsince.numbered
  nextId_le := by
    rw [hstores]
    exact hsince.nextId_le
  enrolls := by
    rw [hstores.registered_eq]
    exact hsince.enrolls

/-- What the counter gives an id to is new, and its id is not one that the counter had passed. -/
theorem withNext (pattern : Pattern) : before.Since (registry.withNext pattern) where
  numbered := hsince.numbered.withNext pattern
  nextId_le := hsince.nextId_le.trans (le_max_left _ _)
  enrolls entry hentry hid := by
    rw [Registry.withNext, hsince.numbered.coherent.registered_extend, List.mem_append,
      List.mem_singleton] at hentry
    rcases hentry with hentry | rfl
    · exact hsince.enrolls entry hentry hid
    · exact absurd hid (Int.not_lt.mpr hsince.nextId_le)

theorem renamed (hpattern : registry.pattern? serial = some pattern) (name : String)
    (kind : Option Kind) : before.Since (registry.renamed serial pattern name kind) where
  numbered := hsince.numbered.renamed hpattern name kind
  nextId_le := hsince.nextId_le
  enrolls entry hentry hid := by
    rw [registered_renamed hpattern, List.mem_map] at hentry
    obtain ⟨old, hold, rfl⟩ := hentry
    split at hid
    next hserial =>
      obtain rfl : pattern = old.2 :=
        Option.some.inj (hpattern.symm.trans (hserial ▸ (mem_registered hold).1))
      rw [if_pos hserial]
      exact hserial ▸ hsince.enrolls old hold hid
    next hserial =>
      rw [if_neg hserial]
      exact hsince.enrolls old hold hid

theorem without (serial : Serial) (pattern : Pattern) :
    before.Since (registry.without serial pattern) where
  numbered := hsince.numbered.without serial pattern
  nextId_le := hsince.nextId_le
  enrolls entry hentry hid := hsince.enrolls entry (mem_registered_without.mp hentry).1 hid

end Since

theorem enduring_since (before : Registry) : Enduring before.Since where
  stores hsince hstores := hsince.stores hstores
  withNext hsince _ := hsince.withNext _
  named hsince hregistered _ _ := hsince.renamed (mem_registered hregistered).1 _ _
  without hsince _ _ _ := hsince.without _ _

/-! ## Registrations -/

/-- A registration that leaves the id to the counter: of the basic patterns, of a pattern that is
new or that has been compiled before, of a literal, of a text and of an experiment. -/
inductive Registration where
  | basics
  | add (pattern : Pattern)
  | adopt (serial : Serial)
  | addLiteral (text : String) (name : Option String) (kind : Kind)
  | register (name : Option String) (kind : Kind) (text : String)
  | experiment (text : String)

/-- The registry with a pattern of its ledger that had no id registered under the next one. -/
def adopted (registry : Registry) (serial : Serial) (pattern : Pattern) : Registry :=
  { registry with
    ledger := registry.ledger.setIfInBounds serial { pattern with id := registry.nextId } }.enlist
      serial { pattern with id := registry.nextId }

section Adopting

variable (hnumbered : registry.Numbered) (hpattern : registry.pattern? serial = some pattern)
  (hid : pattern.id < 0)
include hnumbered hpattern hid

/-- What has no id is not registered. -/
theorem Numbered.serial_ne {id : Int} {other : Serial} (hentry : (id, other) ∈ registry.entries) :
    other ≠ serial := by
  rintro rfl
  obtain ⟨found, hfound, rfl⟩ := hnumbered.coherent.exists_pattern hentry
  obtain rfl := Option.some.inj (hfound.symm.trans hpattern)
  exact absurd (hnumbered.bounded _ _ hentry).1 (Int.not_le.mpr hid)

theorem Numbered.pattern?_adopted {id : Int} {other : Serial}
    (hentry : (id, other) ∈ registry.entries) :
    (registry.adopted serial pattern).pattern? other = registry.pattern? other := by
  have hne := hnumbered.serial_ne hpattern hid hentry
  exact Array.getElem?_setIfInBounds_ne hne.symm

omit hnumbered hid in
theorem pattern?_adopted_self : (registry.adopted serial pattern).pattern? serial =
    some { pattern with id := registry.nextId } :=
  Array.getElem?_setIfInBounds_self_of_lt (lt_size_of_pattern? hpattern)

theorem Numbered.registered_adopted : (registry.adopted serial pattern).registered =
    registry.registered ++ [(serial, { pattern with id := registry.nextId })] := by
  have hentries : (registry.adopted serial pattern).entries =
      registry.entries ++ [(registry.nextId, serial)] := rfl
  rw [registered, hentries, List.filterMap_append]
  congr 1
  · refine List.filterMap_congr fun entry hentry => ?_
    rw [hnumbered.pattern?_adopted hpattern hid hentry]
  · simp [pattern?_adopted_self hpattern]

theorem Numbered.adopted : (registry.adopted serial pattern).Numbered := by
  have hentries : (registry.adopted serial pattern).entries =
      registry.entries ++ [(registry.nextId, serial)] := rfl
  have hnext : (registry.adopted serial pattern).nextId =
      max registry.nextId (registry.nextId + 1) := rfl
  have hcounter := hnumbered.counter
  have hcases : ∀ {id : Int} {other : Serial},
      (id, other) ∈ (registry.adopted serial pattern).entries →
        (id, other) ∈ registry.entries ∨ id = registry.nextId ∧ other = serial := by
    intro id other hentry
    simpa [hentries] using hentry
  refine ⟨⟨?_, fun {id other} hentry => ?_⟩, fun id other hentry => ?_, by omega⟩
  · rw [hentries, List.map_append]
    refine List.nodup_append.mpr ⟨hnumbered.coherent.nodup_ids, List.nodup_singleton _, ?_⟩
    rintro id hmem next hother rfl
    obtain ⟨⟨id, other⟩, hentry, rfl⟩ := List.mem_map.mp hmem
    have hlt := (hnumbered.bounded id other hentry).2
    exact absurd (List.mem_singleton.mp hother) (Int.ne_of_lt hlt)
  · rcases hcases hentry with hentry | ⟨rfl, rfl⟩
    · rw [hnumbered.pattern?_adopted hpattern hid hentry]
      exact hnumbered.coherent.exists_pattern hentry
    · exact ⟨_, pattern?_adopted_self hpattern, rfl⟩
  · rcases hcases hentry with hentry | ⟨rfl, rfl⟩
    · have hbounds := hnumbered.bounded id other hentry
      omega
    · omega

end Adopting

/-- What a registration does. -/
def Registration.perform : Registration → Action Unit
  | basics => registerBasics
  | add pattern => discard (Registry.add { pattern with id := -1 })
  | adopt serial => do
    match (← getThe Registry).pattern? serial with
    | some pattern => if pattern.id < 0 then discard (addKept serial pattern)
    | none => return
  | addLiteral text name kind => discard (Registry.addLiteral text name (-1) kind)
  | register name kind text => discard (Registry.register name kind text (-1))
  | experiment text => discard (registerExperiment text)

namespace Since

variable (hsince : before.Since registry)
include hsince

theorem keeps_add (hid : pattern.id < 0) : KeepsFrom before.Since registry (add pattern) := by
  refine keepsFrom_add hsince fun _ => ?_
  rw [idFor, if_pos hid]
  exact hsince.withNext pattern

theorem keeps_register {id : Int} (hid : id < 0) (name : Option String) (kind : Kind)
    (text : String) : KeepsFrom before.Since registry (Registry.register name kind text id) :=
  keepsFrom_register hsince fun _ _ => hsince.keeps_add hid

theorem adopted (hpattern : registry.pattern? serial = some pattern) (hid : pattern.id < 0) :
    before.Since (registry.adopted serial pattern) where
  numbered := hsince.numbered.adopted hpattern hid
  nextId_le := hsince.nextId_le.trans (le_max_left _ _)
  enrolls entry hentry hlt := by
    rw [hsince.numbered.registered_adopted hpattern hid, List.mem_append,
      List.mem_singleton] at hentry
    rcases hentry with hentry | rfl
    · exact hsince.enrolls entry hentry hlt
    · exact absurd hlt (Int.not_lt.mpr hsince.nextId_le)

theorem keeps_addKept (hpattern : registry.pattern? serial = some pattern) (hid : pattern.id < 0) :
    KeepsFrom before.Since registry (addKept serial pattern) := by
  unfold KeepsFrom addKept
  by_cases hfree : registry.Free pattern
  · rw [run_enroll_of_free hfree rfl, idFor, if_pos hid]
    exact hsince.adopted hpattern hid
  · obtain ⟨fault, hrun⟩ := run_enroll_of_taken (revise serial) hfree
    rw [hrun]
    exact hsince

theorem keeps_registration (registration : Registration) :
    KeepsFrom before.Since registry registration.perform := by
  have hid : (-1 : Int) < 0 := by decide
  cases registration with
  | basics =>
      exact keepsFrom_registerBasics hsince (fun _ _ _ hstate => hstate.keeps_add hid)
        fun _ _ _ hstate => hstate.keeps_register hid _ _ _
  | add pattern => exact (hsince.keeps_add hid).discard
  | adopt serial =>
      refine .read ?_
      cases hpattern : registry.pattern? serial with
      | none => exact hsince
      | some pattern =>
          dsimp only
          split
          next hid => exact (hsince.keeps_addKept hpattern hid).discard
          next => exact hsince
  | addLiteral text name kind => exact (hsince.keeps_add hid).discard
  | register name kind text => exact (hsince.keeps_register hid name kind text).discard
  | experiment text =>
      exact ((enduring_since before).keeps_registerExperiment hsince text).discard

end Since

end Registry

namespace Trainer

open Registry

variable {trainer : Trainer} {stage : Stage} {mark : Int} {α : Type}

/-! ## The note of a survey -/

/-- The trainer is in a stage, and the ids below the mark were known when the last survey was
taken. -/
def Marks (stage : Stage) (mark : Int) (trainer : Trainer) : Prop :=
  trainer.stage = stage ∧ trainer.surveyedUntil = mark

/-- The operation leaves the stage and the mark alone, also if it fails. -/
abbrev KeepsMarks (stage : Stage) (mark : Int) (trainer : Trainer) (action : Action α) : Prop :=
  EndsFrom (Marks stage mark) trainer action fun _ => Marks stage mark

section Marking

variable (hmarks : trainer.Marks stage mark)
include hmarks

theorem Marks.onRegistry (action : Registry.Action α) :
    KeepsMarks stage mark trainer (onRegistry action) := by
  rcases hrun : action.run trainer.registry with ⟨result, registry⟩
  rw [KeepsMarks, EndsFrom, run_onRegistry hrun]
  cases result <;> exact hmarks

theorem Marks.registerProposal (proposal : Proposal) :
    KeepsMarks stage mark trainer (registerProposal proposal) := by
  apply EndsFrom.read
  rcases hrun : (registerExperiment proposal.text).run trainer.registry with ⟨result, registry⟩
  have hattempt := run_onRegistry hrun
  cases result with
  | ok serial => exact .after_ok ((run_attempt hattempt).trans rfl) (.read (.modify hmarks))
  | error fault =>
      cases fault
      case pattern => exact .after_ok ((run_attempt hattempt).trans rfl) hmarks
      all_goals exact .after_error ((run_attempt hattempt).trans rfl) hmarks

theorem Marks.registerAll (proposals : List Proposal) (summary : Summary) :
    KeepsMarks stage mark trainer (registerAll proposals summary) := by
  induction proposals generalizing trainer summary with
  | nil => exact hmarks
  | cons proposal rest ih =>
      apply (Marks.registerProposal hmarks proposal).bind
      intro found after hafter
      cases found with
      | none => exact ih hafter _
      | some id => exact ih hafter _

theorem Marks.runStrategies (strategies : List Strategy) (summary : Summary) :
    KeepsMarks stage mark trainer (runStrategies strategies summary) := by
  induction strategies generalizing trainer summary with
  | nil => exact hmarks
  | cons strategy rest ih =>
      refine .read (.modify ?_)
      refine EndsFrom.bind (Marks.onRegistry (by exact hmarks) _) fun proposals middle hmiddle => ?_
      exact (Marks.registerAll hmiddle proposals summary).bind fun _ _ hafter => ih hafter _

theorem Marks.removeUnused (todo : List (Serial × Pattern)) :
    KeepsMarks stage mark trainer (removeUnused todo) := by
  induction todo generalizing trainer with
  | nil => exact hmarks
  | cons entry rest ih =>
      unfold Trainer.removeUnused
      apply EndsFrom.read
      split
      next => exact ih hmarks
      next =>
        refine (Marks.onRegistry hmarks _).bind fun _ middle hmiddle => .modify ?_
        exact EndsFrom.bind (ih hmiddle) fun _ _ hafter => hafter

theorem Marks.cullExperiments : KeepsMarks stage mark trainer cullExperiments :=
  .read (.lift_of_fails hmarks fun _ _ => Marks.removeUnused hmarks _)

theorem Marks.nameShapes (shapes : List (String × String)) :
    KeepsMarks stage mark trainer (nameShapes shapes) := by
  induction shapes generalizing trainer with
  | nil => exact hmarks
  | cons shape rest ih =>
      unfold Trainer.nameShapes
      apply EndsFrom.read
      split
      next => exact ih hmarks
      next =>
        refine (Marks.onRegistry hmarks _).bind fun found middle hmiddle => ?_
        cases found with
        | none => exact ih hmiddle
        | some entry =>
            refine (Marks.onRegistry hmiddle _).bind fun _ renamed hrenamed => .modify ?_
            exact EndsFrom.bind (ih hrenamed) fun _ _ hafter => hafter

end Marking

/-- The last survey has been taken by the iteration, as its stage tells. -/
def hasSurveyed (trainer : Trainer) : Bool :=
  trainer.stage = .propose || trainer.stage = .cull || trainer.stage = .name

theorem Marks.hasSurveyed_eq (hmarks : trainer.Marks stage mark) : trainer.hasSurveyed =
    (stage = .propose || stage = .cull || stage = .name : Bool) := by
  rw [hasSurveyed, hmarks.1]

/-- After an iteration the mark is that of a survey before the iteration, or the iteration has
surveyed charts of the registry that it began with, and the mark is where the counter stood. -/
structure Dates (before after : Trainer) : Prop where
  old : after.hasSurveyed = false → after.surveyedUntil = before.surveyedUntil
  new : after.hasSurveyed = true → after.surveyedUntil = before.registry.nextId

theorem dates_of_old {after : Trainer} (hmarks : after.Marks stage trainer.surveyedUntil)
    (hstage : stage = .parse ∨ stage = .survey) : trainer.Dates after := by
  constructor
  · exact fun _ => hmarks.2
  · intro hsurveyed
    rw [hmarks.hasSurveyed_eq] at hsurveyed
    rcases hstage with rfl | rfl <;> cases hsurveyed

theorem dates_of_new {after : Trainer} (hmarks : after.Marks stage trainer.registry.nextId)
    (hstage : stage = .propose ∨ stage = .cull ∨ stage = .name) : trainer.Dates after := by
  constructor
  · intro hsurveyed
    rw [hmarks.hasSurveyed_eq] at hsurveyed
    rcases hstage with rfl | rfl | rfl <;> cases hsurveyed
  · exact fun _ => hmarks.2

/-- Nothing but the charts, the survey and what is noted may differ. -/
def Observes (before after : Trainer) : Prop :=
  ∃ charts survey events, after = { before with charts, survey, events }

theorem Observes.trans {before middle after : Trainer} (hfirst : before.Observes middle)
    (hsecond : middle.Observes after) : before.Observes after := by
  obtain ⟨_, _, _, rfl⟩ := hfirst
  obtain ⟨charts, survey, events, rfl⟩ := hsecond
  exact ⟨charts, survey, events, rfl⟩

theorem observes_parseFrom (number : Nat) (paragraphs : List String) :
    EndsFrom trainer.Observes trainer (parseFrom number paragraphs) fun _ => trainer.Observes := by
  induction paragraphs generalizing trainer number with
  | nil => exact ⟨_, _, _, rfl⟩
  | cons paragraph rest ih =>
      refine .read (.lift_of_fails ⟨_, _, _, rfl⟩ fun depth _ =>
        .lift_of_fails ⟨_, _, _, rfl⟩ fun parsed _ => .modify (.modify ?_))
      have hparsed : ∀ {charts events after}, ({ trainer with charts, events }).Observes after →
          trainer.Observes after := Observes.trans ⟨_, _, _, rfl⟩
      exact ((ih (number + 1)).mono_fails fun _ => hparsed).mono fun _ _ => hparsed

theorem observes_record (grammar : Grammar) (charts : List Chart) :
    EndsFrom trainer.Observes trainer
      (charts.forM fun chart => onSurvey (Survey.record grammar chart))
      fun _ => trainer.Observes := by
  refine .forM (fun chart _ state hstate => ?_) ⟨_, _, _, rfl⟩
  obtain ⟨charts, survey, events, rfl⟩ := hstate
  rcases hrun : (Survey.record grammar chart).run survey with ⟨result, recorded⟩
  rw [EndsFrom, run_onSurvey hrun]
  cases result <;> exact ⟨charts, recorded, events, rfl⟩

theorem ends_surveyCharts (trainer : Trainer) :
    EndsFrom trainer.Observes trainer surveyCharts fun _ =>
      Marks trainer.stage trainer.registry.nextId := by
  refine .read ((observes_record trainer.registry.grammar trainer.charts).bind ?_)
  rintro _ _ ⟨charts, survey, events, rfl⟩
  exact .modify (.read ⟨rfl, rfl⟩)

theorem dates_trainIteration (trainer : Trainer) :
    trainer.Dates (trainIteration.run trainer).2 := by
  -- Up to the survey the mark is the old one and the registry is as it was.
  have hparse : ∀ after, trainer.begun.Observes after → trainer.Dates after := by
    rintro _ ⟨_, _, _, rfl⟩
    exact dates_of_old ⟨rfl, rfl⟩ (.inl rfl)
  refine EndsFrom.holds (.modify (.read (.modify (.modify (.modify (.modify (.read
    (.lift_of_fails ?_ fun paragraphs _ => ?_))))))))
  · exact hparse _ ⟨_, _, _, rfl⟩
  have hparsed : EndsFrom trainer.begun.Observes trainer.begun (parseFrom 1 paragraphs)
      fun _ => trainer.begun.Observes := observes_parseFrom 1 paragraphs
  refine EndsFrom.bind (hparsed.mono_fails hparse) ?_
  rintro _ _ ⟨charts, survey, events, rfl⟩
  refine .modify (EndsFrom.bind ((ends_surveyCharts _).mono_fails ?_) ?_)
  · rintro _ ⟨_, _, _, rfl⟩
    exact dates_of_old ⟨rfl, rfl⟩ (.inr rfl)
  -- From then on the mark stays where the counter stood.
  intro _ surveyed hsurveyed
  have hlater {stage : Stage} (hstage : stage = .propose ∨ stage = .cull ∨ stage = .name) :
      ∀ after, Marks stage trainer.registry.nextId after → trainer.Dates after :=
    fun after hmarks => dates_of_new hmarks hstage
  refine .modify (.read (EndsFrom.bind
    (EndsFrom.mono_fails (Marks.runStrategies ?_ _ _) (hlater (.inl rfl))) ?_))
  · exact ⟨rfl, hsurveyed.2⟩
  intro summary proposed hproposed
  refine .modify (EndsFrom.bind
    (EndsFrom.mono_fails (Marks.cullExperiments ?_) (hlater (.inr (.inl rfl)))) ?_)
  · exact ⟨rfl, hproposed.2⟩
  intro _ culled hculled
  refine .modify (EndsFrom.bind
    (EndsFrom.mono_fails (Marks.nameShapes ?_ knownShapes) (hlater (.inr (.inr rfl)))) ?_)
  · exact ⟨rfl, hculled.2⟩
  intro _ named hnamed
  exact .read (.modify (.pure (hlater (.inr (.inr rfl)) _ hnamed)))

/-! ## Courses -/

/-- Something that is done with a trainer or with its registry, short of asking for ids. -/
inductive Deed where
  | iterate
  | cull
  | name
  | register (registration : Registration)

/-- The trainer after a deed, whether this has failed or not. -/
def Deed.applyTo (trainer : Trainer) : Deed → Trainer
  | iterate => (trainIteration.run trainer).2
  | cull => (cullExperiments.run trainer).2
  | name => (nameKnownPatterns.run trainer).2
  | register registration => ((onRegistry registration.perform).run trainer).2

/-- Deeds leave only new patterns above where the counter stood. -/
theorem since_applyTo {before : Registry} (hsince : before.Since trainer.registry) (deed : Deed) :
    before.Since (deed.applyTo trainer).registry := by
  cases deed with
  | iterate => exact (enduring_since before).trainIteration hsince
  | cull => exact EndsFrom.holds ((enduring_since before).keeps_cullExperiments hsince)
  | name => exact EndsFrom.holds ((enduring_since before).keeps_nameShapes hsince knownShapes)
  | register registration =>
      have hkept : KeepsRegistry before.Since trainer (onRegistry registration.perform) :=
        keepsRegistry_onRegistry (hsince.keeps_registration registration)
      exact hkept.holds

/-- Only an iteration changes the mark. -/
theorem surveyedUntil_applyTo {deed : Deed} (hdeed : deed ≠ .iterate) :
    (deed.applyTo trainer).surveyedUntil = trainer.surveyedUntil := by
  have hmarks : trainer.Marks trainer.stage trainer.surveyedUntil := ⟨rfl, rfl⟩
  cases deed with
  | iterate => exact absurd rfl hdeed
  | cull => exact (EndsFrom.holds (Marks.cullExperiments hmarks)).2
  | name => exact (EndsFrom.holds (Marks.nameShapes hmarks knownShapes)).2
  | register registration => exact (EndsFrom.holds (Marks.onRegistry hmarks _)).2

/-- A trainer, and the registry as the last survey has found it. -/
structure Course where
  trainer : Trainer
  surveyed : Option Registry := none

namespace Course

/-- The course after a deed. An iteration that comes to its survey surveys the registry with which
it begins. -/
def follow (course : Course) (deed : Deed) : Course where
  trainer := deed.applyTo course.trainer
  surveyed :=
    match deed with
    | .iterate =>
      if (trainIteration.run course.trainer).2.hasSurveyed then some course.trainer.registry
      else course.surveyed
    | .cull | .name | .register _ => course.surveyed

/-- The course of a trainer on which deeds are done, one after the other. -/
def after (start : Trainer) (deeds : List Deed) : Course :=
  deeds.foldl follow { trainer := start }

/-- The trainer marks how far the counter had come at the last survey. -/
structure Sound (course : Course) : Prop where
  numbered : course.trainer.registry.Numbered
  marked : ∀ surveyed, course.surveyed = some surveyed →
    surveyed.Numbered ∧ surveyed.Since course.trainer.registry ∧
      course.trainer.surveyedUntil = surveyed.nextId

theorem Sound.follow {course : Course} (hsound : course.Sound) (deed : Deed) :
    (course.follow deed).Sound where
  numbered := (since_applyTo hsound.numbered.since deed).numbered
  marked := by
    intro surveyed hsurveyed
    have hkept : course.surveyed = some surveyed →
        (deed.applyTo course.trainer).surveyedUntil = course.trainer.surveyedUntil →
          surveyed.Numbered ∧ surveyed.Since (deed.applyTo course.trainer).registry ∧
            (deed.applyTo course.trainer).surveyedUntil = surveyed.nextId := by
      intro hbefore hsame
      obtain ⟨hnumbered, hsince, hmark⟩ := hsound.marked surveyed hbefore
      exact ⟨hnumbered, since_applyTo hsince deed, hsame.trans hmark⟩
    cases deed with
    | iterate =>
        have hdates := dates_trainIteration course.trainer
        simp only [Course.follow] at hsurveyed
        split at hsurveyed
        next htaken =>
          obtain rfl := Option.some.inj hsurveyed
          exact ⟨hsound.numbered, since_applyTo hsound.numbered.since .iterate, hdates.new htaken⟩
        next hnone => exact hkept hsurveyed (hdates.old (Bool.not_eq_true _ ▸ hnone))
    | cull => exact hkept hsurveyed (surveyedUntil_applyTo nofun)
    | name => exact hkept hsurveyed (surveyedUntil_applyTo nofun)
    | register registration => exact hkept hsurveyed (surveyedUntil_applyTo nofun)

theorem sound_after {start : Trainer} (hnumbered : start.registry.Numbered) (deeds : List Deed) :
    (after start deeds).Sound := by
  have hstart : Sound { trainer := start } := ⟨hnumbered, nofun⟩
  exact List.foldlRecOn deeds follow hstart fun course hcourse deed _ => hcourse.follow deed

end Course

/-! ## What is culled -/

/-- What culling takes out of the registry is among the experiments that count as surveyed. -/
theorem exists_gone (hcoherent : trainer.registry.Coherent) :
    ∃ gone ⊆ trainer.surveyedExperiments, (Deed.cull.applyTo trainer).registry.registered =
      trainer.registry.registered.filter fun entry => entry.1 ∉ gone.map Prod.fst := by
  simp only [Deed.applyTo, cullExperiments]
  rw [run_read_bind, run_lift_bind]
  cases trainer.options.keepExperiments with
  | error fault => exact ⟨[], List.nil_subset _, by simp⟩
  | ok kept =>
      dsimp only
      rw [run_removeUnused hcoherent (pairwise_doomed hcoherent kept) fun entry hentry =>
        List.mem_of_mem_filter (mem_surveyed_of_mem_doomed hentry)]
      refine ⟨trainer.registry.unused (trainer.doomed kept), ?_, registered_withoutAll _⟩
      exact fun entry hentry => mem_surveyed_of_mem_doomed ((unused_sublist _ _).subset hentry)

/-- Whatever a trainer has been through since its last survey, a pattern that culling removes was
registered when the survey was taken. If nothing had ever been registered then, no removed pattern
was. -/
theorem culls_surveyed {start : Trainer} (hnumbered : start.registry.Numbered) (deeds : List Deed)
    {surveyed : Registry} (hsurveyed : (Course.after start deeds).surveyed = some surveyed) :
    ∀ entry ∈ (Course.after start deeds).trainer.registry.registered,
      ¬ (Deed.cull.applyTo (Course.after start deeds).trainer).registry.Enrolls entry.1 →
        (surveyed.Enrolls entry.1 ↔ surveyed.nextId ≠ 0) := by
  obtain ⟨hcourse, hmarked⟩ := Course.sound_after hnumbered deeds
  obtain ⟨hknown, hsince, hmark⟩ := hmarked surveyed hsurveyed
  intro entry hentry hremoved
  obtain ⟨gone, hsurveyedExperiments, hleft⟩ := exists_gone hcourse.coherent
  have hgone : entry ∈ gone := by
    by_contra hnot
    refine hremoved (List.mem_map_of_mem (hleft ▸ List.mem_filter.mpr ⟨hentry, ?_⟩))
    refine decide_eq_true fun hserial => ?_
    obtain ⟨other, hother, hsame⟩ := List.mem_map.mp hserial
    have hregistered := List.mem_of_mem_filter (hsurveyedExperiments hother)
    rw [eq_of_mem_registered hregistered hentry hsame] at hother
    exact hnot hother
  have hlt := (List.mem_filter.mp (hsurveyedExperiments hgone)).2
  rw [Bool.and_eq_true, decide_eq_true_eq, decide_eq_true_eq, hmark] at hlt
  constructor
  · intro henrolled hzero
    obtain ⟨old, hold, -⟩ := List.mem_map.mp henrolled
    have hbounds := hknown.bounded _ _ (hknown.coherent.mem_entries_of_registered hold)
    omega
  · intro hne
    rw [if_neg hne] at hlt
    exact hsince.enrolls entry hentry hlt.2

/-- A trainer that keeps no experiments, with an empty registry. -/
def bare : Trainer where
  options := { keepExperiments := .ok 0 }
  strategies := [.pairs (.ok (some 3)) (.ok (some 50)), .stretches 4]

/-- The same trainer, with a registry of one letter. -/
def lettered : Trainer :=
  { bare with registry := history [.addLiteral "a" (some "a") (-1) .literal] }

/-- If there is a letter when the survey is taken, culling spares a later experiment. -/
theorem culls_surveyed_lettered : ∃ surveyed,
    let course := Course.after lettered [.iterate, .register (.experiment "a a")]
    lettered.registry.Numbered ∧ course.surveyed = some surveyed ∧ ¬ surveyed.Enrolls 1 ∧
      (Deed.cull.applyTo course.trainer).registry.Enrolls 1 ∧
        ∀ entry ∈ course.trainer.registry.registered,
          ¬ (Deed.cull.applyTo course.trainer).registry.Enrolls entry.1 →
            (surveyed.Enrolls entry.1 ↔ surveyed.nextId ≠ 0) := by
  have hnumbered : lettered.registry.Numbered := (tidy_history _).numbered
  have hrun : (Course.after lettered [.iterate, .register (.experiment "a a")]).surveyed.any
      (fun surveyed => !decide (surveyed.Enrolls 1)) = true := by
    decide +kernel
  obtain ⟨surveyed, hsurveyed, hcheck⟩ := (Option.any_eq_true _ _).mp hrun
  refine ⟨surveyed, hnumbered, hsurveyed, by simpa using hcheck, by decide +kernel, ?_⟩
  exact culls_surveyed hnumbered _ hsurveyed

/-- The first iteration surveys an empty registry. A literal and an experiment are registered after
that, and culling removes the experiment, which has never been surveyed. -/
theorem not_culls_surveyed_bare : ∃ surveyed,
    let course := Course.after bare [.iterate, .register (.addLiteral "a" (some "a") .literal),
      .register (.experiment "a a")]
    course.surveyed = some surveyed ∧ ¬ surveyed.Enrolls 1 ∧
      course.trainer.registry.Enrolls 1 ∧
        ¬ (Deed.cull.applyTo course.trainer).registry.Enrolls 1 := by
  have hrun : (Course.after bare [.iterate, .register (.addLiteral "a" (some "a") .literal),
      .register (.experiment "a a")]).surveyed.any
        (fun surveyed => !decide (surveyed.Enrolls 1)) = true := by
    decide +kernel
  obtain ⟨surveyed, hsurveyed, hcheck⟩ := (Option.any_eq_true _ _).mp hrun
  exact ⟨surveyed, hsurveyed, by simpa using hcheck, by decide +kernel, by decide +kernel⟩

end Trainer

end Motif
