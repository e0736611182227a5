import Motif.Proofs.Training.Learning

/-!
# Iterations that refuse nothing

Culling and naming leave a trainer steady, and so does every iteration. A training run from the
empty registry with strategies that can be asked for therefore ends, and every proposal is accepted,
as long as no id has more than nine digits.
-/

namespace Motif

namespace Registry

variable {registry : Registry}

/-! ## Experiments of a shape -/

/-- The names of the known shapes are words, and the ranges in their texts can be read. -/
theorem legible_knownShapes : ∀ shape ∈ knownShapes,
    Text.isWord shape.1.toList = true ∧ Lexeme.ReadsRanges shape.2 := by
  have hsymbols : ∀ shape ∈ knownShapes, Text.isWord shape.1.toList = true ∧
      (match Lexeme.read shape.2 with
        | .ok lexemes => lexemes.all fun lexeme =>
            match lexeme.symbol with
            | .range _ => false
            | _ => true
        | .error _ => true) = true := by
    decide +kernel
  intro shape hshape
  obtain ⟨hword, hranges⟩ := hsymbols shape hshape
  refine ⟨hword, fun lexemes hread lexeme hlexeme range hsymbol => ?_⟩
  rw [hread] at hranges
  have hlexeme := List.all_eq_true.mp hranges lexeme hlexeme
  rw [hsymbol] at hlexeme
  cases hlexeme

/-- A registered experiment, or none. -/
def IsExperiment (registry : Registry) (found : Option (Serial × Pattern)) : Prop :=
  ∀ serial pattern, found = some (serial, pattern) →
    (serial, pattern) ∈ registry.registered ∧ pattern.kind = .experimental

theorem Sound.yields_firstExperiment (hsound : registry.Sound) (wanted : String)
    {entries : List (Serial × Pattern)} (hentries : entries ⊆ registry.registered) :
    Yields (BothRecall registry) (Trainer.firstExperiment wanted entries)
      (fun found _ => registry.IsExperiment found) fun _ => False := by
  induction entries with
  | nil => exact fun _ hstate => .pure hstate (by simp [IsExperiment])
  | cons entry rest ih =>
      have hregistered := hentries List.mem_cons_self
      have hrest := ih (List.subset_of_cons_subset hentries)
      obtain ⟨hpattern, hmem⟩ := mem_registered hregistered
      unfold Trainer.firstExperiment
      intro state hstate
      split
      next => exact hrest state hstate
      next hkind =>
        obtain ⟨after, hrun, hafter⟩ := settles_fullDescription hsound hpattern (hsound.fits hmem)
          state hstate.2
        have hdescribed : YieldsFrom (BothRecall registry) state
            (fullDescription entry.1 entry.2) (fun _ _ => True) fun _ => False :=
          ⟨_, after, hrun, ⟨hstate.1, hafter⟩, trivial⟩
        refine hdescribed.bind fun description middle hmiddle _ => ?_
        split
        next =>
          refine .pure (Growth.refl_right hmiddle) ?_
          rintro serial pattern ⟨⟩
          exact ⟨hregistered, not_not.mp hkind⟩
        next => exact hrest middle (Growth.refl_right hmiddle)

/-- Looking for an experiment of a shape cannot fail if the ranges of the shape can be read. -/
theorem Tame.yields_experimentOfShape (htame : registry.Tame) {text : String}
    (hranges : Lexeme.ReadsRanges text) :
    Yields (BothRecall registry) (Trainer.experimentOfShape text)
      (fun found _ => registry.IsExperiment found) fun _ => False := by
  intro state hstate
  have hblames := htame.blames_compile hranges none .experimental
  refine .read ?_
  rw [hstate.2.compile, hstate.2.registered]
  cases hcompile : registry.compile text with
  | error fault =>
      obtain ⟨cause, rfl⟩ := hblames fault hcompile
      exact .pure hstate (by simp [IsExperiment])
  | ok shape =>
      obtain ⟨after, hrun, hafter⟩ := settles_describeFully htame.sound
        (fits_of_compile hcompile) (standsAt_none _) state hstate.2
      have hdescribed : YieldsFrom (BothRecall registry) state (describeFully none shape)
          (fun _ _ => True) fun _ => False :=
        ⟨_, after, hrun, ⟨hstate.1, hafter⟩, trivial⟩
      exact hdescribed.bind fun wanted middle hmiddle _ =>
        htame.sound.yields_firstExperiment wanted (List.Subset.refl _) middle
          (Growth.refl_right hmiddle)

end Registry

namespace Trainer

open Registry

variable {trainer : Trainer} {bound : ℕ∞}

/-! ## Culling -/

theorem mem_registered_of_mem_doomed {kept : Int} {entry : Serial × Pattern}
    (hentry : entry ∈ trainer.doomed kept) : entry ∈ trainer.registry.registered :=
  List.mem_of_mem_filter (mem_surveyed_of_mem_doomed hentry)

theorem Steady.ends_removeUnused (hsteady : trainer.Steady) {todo : List (Serial × Pattern)}
    (htodo : ∀ entry ∈ todo, trainer.registry.pattern? entry.1 = some entry.2) :
    trainer.Ends bound (removeUnused todo) fun _ after => trainer.Continues 0 after := by
  induction todo generalizing trainer with
  | nil => exact hsteady.continues_self
  | cons entry rest ih =>
      have hpattern := htodo entry List.mem_cons_self
      have hrest : ∀ other ∈ rest, trainer.registry.pattern? other.1 = some other.2 :=
        fun other hother => htodo other (List.mem_cons_of_mem _ hother)
      unfold removeUnused
      refine .read ?_
      split
      next => exact ih hsteady hrest
      next hused =>
        have hunused : trainer.registry.dependents entry.1 entry.2.id = [] := by
          simpa using hused
        refine .after_ok (run_onRegistry (run_unregister_of_unused hunused)) (.modify ?_)
        split
        next =>
          have hremoved := hsteady.withRegistry (hsteady.tame.without hpattern hunused)
            (Int.le_refl _)
          exact EndsFrom.bind (ih (hremoved.emitted _ fun _ => trivial) hrest)
            fun _ after hafter => .pure { hafter with }
        next =>
          exact EndsFrom.bind (ih (hsteady.emitted _ fun _ => trivial) hrest)
            fun _ after hafter => .pure { hafter with }

theorem Steady.ends_cullExperiments (hsteady : trainer.Steady) :
    trainer.Ends bound cullExperiments fun _ after => trainer.Continues 0 after := by
  obtain ⟨kept, hkept⟩ := hsteady.usable.keepExperiments
  refine .read (.lift hkept (hsteady.ends_removeUnused fun entry hentry => ?_))
  exact (mem_registered (mem_registered_of_mem_doomed hentry)).1

/-! ## Naming -/

/-- An experiment is no literal. -/
theorem Steady.literal?_eq_none (hsteady : trainer.Steady) {serial : Serial} {pattern : Pattern}
    (hregistered : (serial, pattern) ∈ trainer.registry.registered)
    (hkind : pattern.kind = .experimental) : pattern.literal? = none := by
  cases hcontent : pattern.content with
  | literal text =>
      have htabular := hsteady.tame.tabular pattern (mem_registered hregistered).2
      rw [(htabular.literal text hcontent).1] at hkind
      cases hkind
  | tree root => rw [Pattern.literal?, hcontent, Content.literal?]

theorem Steady.ends_nameShapes (hsteady : trainer.Steady) {shapes : List (String × String)}
    (hshapes : ∀ shape ∈ shapes,
      Text.isWord shape.1.toList = true ∧ Lexeme.ReadsRanges shape.2) :
    trainer.Ends bound (nameShapes shapes) fun _ after => trainer.Continues 0 after := by
  induction shapes generalizing trainer with
  | nil => exact hsteady.continues_self
  | cons shape rest ih =>
      obtain ⟨hword, hranges⟩ := hshapes shape List.mem_cons_self
      have hrest := fun other hother => hshapes other (List.mem_cons_of_mem _ hother)
      unfold nameShapes
      refine .read ?_
      split
      next => exact ih hsteady hrest
      next htaken =>
        obtain ⟨found, registry, hrun, ⟨-, hrecalls⟩, hfound⟩ :=
          (hsteady.tame.yields_experimentOfShape hranges trainer.registry
            ⟨hsteady.tame.recalls, hsteady.tame.recalls⟩).exists_ok
        have hasked := hsteady.continues_recalled hrecalls
        refine .after_ok (run_onRegistry hrun) ?_
        cases found with
        | none => exact (ih hasked.steady hrest).mono fun _ _ hafter => hasked.idle hafter
        | some entry =>
            obtain ⟨serial, pattern⟩ := entry
            obtain ⟨hregistered, hkind⟩ := hfound serial pattern rfl
            rw [← hrecalls.registered] at hregistered
            have hfree : trainer.registry.named? shape.1 = none := by simpa using htaken
            have hname : registry.named? shape.1 = none := by
              rw [hrecalls.same]
              exact hfree
            have hrenamed : (registry.renamed serial pattern shape.1 (some .derived)).Tame := by
              refine hasked.steady.tame.renamed hregistered hword ?_ ?_
              · rintro _ ⟨⟩
                exact ⟨by decide, hasked.steady.literal?_eq_none hregistered hkind⟩
              · intro other hother
                rw [hname] at hother
                cases hother
            refine .after_ok (run_onRegistry (run_rename_of_free hname serial pattern
              (some .derived))) (.modify ?_)
            have hnamed := (hasked.steady.withRegistry hrenamed (Int.le_refl _)).emitted
              (.patternNamed pattern.id shape.1) fun _ => trivial
            exact EndsFrom.bind (ih hnamed hrest) fun _ after hafter =>
              .pure (hasked.idle { hafter with })

/-! ## Iterations -/

/-- The trainer when it begins to parse in the next iteration. -/
def begun (trainer : Trainer) : Trainer :=
  { trainer with
    iteration := trainer.iteration + 1
    survey := trainer.survey.clear
    charts := []
    stage := .parse
    events := (trainer.iteration + 1, .iterationStarted trainer.registry.size) :: trainer.events }

theorem Steady.begun (hsteady : trainer.Steady) : trainer.Continues 0 trainer.begun :=
  { hsteady.continues_self with
    steady :=
      { hsteady with
        accepted := fun hshort => List.forall_mem_cons.mpr ⟨trivial, hsteady.accepted hshort⟩ } }

/-- What the proposals of one iteration do not exceed. -/
def room (trainer : Trainer) : ℕ∞ :=
  (trainer.strategies.map (Strategy.room trainer.paragraphs.length)).sum

/-- In one iteration nothing is rejected, whatever the paragraphs are. -/
theorem Steady.ends_trainIteration (hsteady : trainer.Steady)
    (hbound : trainer.usedIds + trainer.room ≤ bound) :
    trainer.Ends bound trainIteration fun summary after =>
      trainer.Continues trainer.room after ∧ (after.HasShortIds → summary.rejected = 0) := by
  obtain ⟨limit, hlimit⟩ := hsteady.usable.paragraphLimit
  have hused : trainer.begun.usedParagraphs = .ok (limit.cut trainer.paragraphs) := by
    have hoption : trainer.begun.options.paragraphLimit = .ok limit := hlimit
    rw [usedParagraphs, hoption]
    rfl
  have hnone : trainer.begun.HasParsed 0 :=
    ⟨Nat.le_refl _, fun _ hchart => absurd hchart List.not_mem_nil⟩
  -- Only the strategies take ids; all other stages are idle.
  unfold trainIteration
  refine .modify (.read (.modify (.modify (.modify (.modify (.read (.lift hused ?_)))))))
  refine EndsFrom.bind (hsteady.begun.steady.ends_parseFrom hnone 1 _) fun _ parsed hparsed => ?_
  have hcharts : parsed.HasParsed trainer.paragraphs.length :=
    hparsed.2.mono (by rw [Nat.zero_add]; exact limit.length_cut_le _)
  have hsurveying := (hsteady.begun.idle hparsed.1).enter .survey
  refine .modify (EndsFrom.bind (hsurveying.steady.ends_surveyCharts (hcharts.enter .survey))
    fun _ surveyed hsurveyed => ?_)
  have hproposing := (hsurveying.idle hsurveyed.1).enter .propose
  have hroom : (surveyed.strategies.map (Strategy.room trainer.paragraphs.length)).sum =
      trainer.room := by
    rw [room, hproposing.strategies_eq]
  have hroomy : usedIds { surveyed with stage := .propose } + trainer.room ≤ bound := by
    have hused := hproposing.usedIds_le
    rw [add_zero] at hused
    exact (add_le_add_left hused _).trans hbound
  refine .modify (.read (EndsFrom.bind
    (hproposing.steady.ends_runStrategies (hsurveyed.2.enter .propose) hproposing.steady.strategies
      (hroom.symm ▸ hroomy) _) fun summary proposed hproposed => ?_))
  have hproposals := hproposing.trans hproposed.1.toContinues
  rw [zero_add, hroom] at hproposals
  have hculling := hproposals.enter .cull
  refine .modify (EndsFrom.bind hculling.steady.ends_cullExperiments fun _ culled hculled => ?_)
  have hnaming := hculled.enter .name
  refine .modify (EndsFrom.bind (hnaming.steady.ends_nameShapes legible_knownShapes)
    fun _ named hnamed => ?_)
  have hdone := hnaming.idle hnamed
  have hiterated := hculling.idle hdone
  refine .read (.modify (.pure ⟨{ hiterated with steady := ?_ }, fun hshort => ?_⟩))
  · exact hiterated.steady.emitted _ fun _ => trivial
  · exact hproposed.2 (hdone.hasShortIds hshort)

theorem run_prepare_of_empty (hempty : trainer.registry = {}) {registry : Registry}
    (hrun : registerBasics.run {} = (.ok ⟨⟩, registry)) :
    prepare.run trainer = (.ok ⟨⟩, { trainer with registry }) := by
  have hsize : trainer.registry.size = 0 := by
    rw [hempty]
    rfl
  -- The registry with the basic patterns stays a variable: computing it would take too long.
  rw [prepare, run_read_bind, if_pos hsize]
  rw [← hempty] at hrun
  exact run_onRegistry hrun

/-- Taking paragraphs gives a new trainer the basic patterns. -/
theorem exists_loadParagraphs {options : TrainOptions} (husable : options.IsUsable)
    (hcreate : create options {} = .ok trainer) (paragraphs : List String) :
    ∃ registry : Registry, (loadParagraphs paragraphs).run trainer =
      (.ok ⟨⟩, { trainer with registry, paragraphs }) ∧
        Steady { trainer with registry, paragraphs } ∧ registry.size ≠ 0 ∧
          registry.nextId ≤ 125 := by
  obtain ⟨registry, hrun, htame, hsize, hnextId⟩ := exists_registerBasics
  obtain ⟨names, hnames⟩ := husable.strategies
  obtain ⟨chosen, hchosen, hcreate⟩ := bind_eq_ok_iff.mp hcreate
  obtain rfl : names = chosen := Except.ok.inj (hnames.symm.trans hchosen)
  obtain rfl := Except.ok.inj hcreate
  refine ⟨registry, (run_bind_of_ok (run_prepare_of_empty rfl hrun)).trans rfl, ?_, hsize, hnextId⟩
  refine ⟨husable, fun strategy hstrategy => ?_, husable.maxExamples, htame, fun _ => ?_⟩
  · obtain ⟨name, -, rfl⟩ := List.mem_map.mp hstrategy
    exact husable.strategy name
  · exact fun _ hentry => absurd hentry List.not_mem_nil

/-- A number of iterations that has been given is used, and otherwise the one in the settings. -/
def Counts (trainer : Trainer) (iterations : Option Int) (count : Int) : Prop :=
  (iterations.map Except.ok).getD trainer.options.iterations = .ok count

theorem isUsable_default : TrainOptions.IsUsable {} where
  iterations := ⟨_, rfl⟩
  strategies := ⟨_, rfl⟩
  pairThreshold := ⟨_, rfl⟩
  maxPairProposals := ⟨_, rfl⟩
  keepExperiments := ⟨_, rfl⟩
  maxExamples := ⟨_, rfl⟩
  maxDepth := ⟨_, rfl⟩
  paragraphLimit := ⟨_, rfl⟩

end Trainer

end Motif
