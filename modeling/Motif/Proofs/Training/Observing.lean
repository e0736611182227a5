import Motif.Proofs.Training.Proposing
import Motif.Training.Trainer

/-!
# What a trainer observes

Parsing and surveying never fail where the settings can be used. They leave the registry as it is,
and all tokens of the charts belong to registered patterns.
-/

namespace Motif

/-- All settings can be used. -/
structure TrainOptions.IsUsable (options : TrainOptions) : Prop where
  iterations : ∃ count, options.iterations = .ok count
  strategies : ∃ names, options.strategies = .ok names
  pairThreshold : ∃ limit, options.pairThreshold = .ok limit
  maxPairProposals : ∃ limit, options.maxPairProposals = .ok limit
  keepExperiments : ∃ kept, options.keepExperiments = .ok kept
  maxExamples : ∃ limit, options.maxExamples = .ok limit
  maxDepth : ∃ limit, options.maxDepth = .ok limit
  paragraphLimit : ∃ limit, options.paragraphLimit = .ok limit

theorem TrainOptions.IsUsable.strategy {options : TrainOptions} (husable : options.IsUsable)
    (name : StrategyName) : (Strategy.ofName options name).IsUsable := by
  obtain ⟨threshold, hthreshold⟩ := husable.pairThreshold
  obtain ⟨limit, hlimit⟩ := husable.maxPairProposals
  cases name with
  | pairs =>
      rw [Strategy.ofName, hthreshold, hlimit]
      exact .pairs threshold limit
  | stretches => exact .stretches 4

namespace Registry

variable {registry : Registry}

/-- A tidy registry parses every text, and all patterns that match are registered. -/
theorem Tidy.exists_parse (htidy : registry.Tidy) (text : String) (maxDepth : Int) :
    ∃ chart, registry.parse text maxDepth = .ok chart ∧
      (∃ cs active, Chart.Indexed cs active chart) ∧
        ∀ token ∈ chart.tokens, (registry.byId? token.id).isSome := by
  obtain ⟨chart, hparse, hextends⟩ := htidy.sound.closed.exists_extends text maxDepth
  refine ⟨chart, hparse, ⟨_, _, hextends.indexed⟩, fun token htoken => ?_⟩
  have hhead := hextends.indexed.mem_tokens_iff.mp htoken
  have houtcome := (hextends.indexed.head?_eq_some_iff.mp hhead).1
  obtain ⟨pattern, hpattern, hid, -⟩ := hextends.made (Chart.outcome?_ofText ..) houtcome
  rw [← hid, htidy.coherent.mem_patterns_iff.mp hpattern]
  rfl

/-- With its holes that chart is one whose tokens belong to registered patterns. -/
theorem hasParsed_withHoles {chart : Chart} (hindexed : ∃ cs active, Chart.Indexed cs active chart)
    (hknown : ∀ token ∈ chart.tokens, (registry.byId? token.id).isSome) (grammar : Grammar)
    (kind : Kind) :
    registry.HasParsed { chart with holes := chart.findHoles grammar kind } where
  indexed := by
    obtain ⟨cs, active, hchart⟩ := hindexed
    exact ⟨cs, active, { hchart with }⟩
  known := hknown
  holes hole hhole := by
    obtain ⟨cs, active, hchart⟩ := hindexed
    have hgap := ((hchart.areGaps_findHoles grammar kind).mem_iff hole).mp hhole
    have hstart := hgap.start_nonneg
    have hlength := hgap.length_pos
    have hstop : hole.start + hole.length ≤ cs.size := hgap.stop_le
    rw [hgap.text_eq, String.toList_ofList]
    intro hnil
    have hcount := congrArg List.length hnil
    simp only [List.length_take, List.length_drop, Array.length_toList, List.length_nil] at hcount
    omega

end Registry

namespace Survey

theorem maxExamples_foldl {α : Type} {change : Survey → α → Survey}
    (hchange : ∀ survey item, (change survey item).maxExamples = survey.maxExamples)
    (items : List α) (survey : Survey) :
    (items.foldl change survey).maxExamples = survey.maxExamples := by
  induction items generalizing survey with
  | nil => rfl
  | cons item rest ih => rw [List.foldl_cons, ih, hchange]

theorem maxExamples_countPair (survey : Survey) (first second : Token) :
    (survey.countPair first second).maxExamples = survey.maxExamples := by
  unfold countPair
  dsimp only
  split <;> rfl

/-- Observing a chart does not change how many examples are kept. -/
theorem maxExamples_observe (survey : Survey) (grammar : Grammar) (chart : Chart) :
    (survey.observe grammar chart).maxExamples = survey.maxExamples := by
  unfold observe
  dsimp only
  rw [maxExamples_foldl fun survey token => ?_]
  · rfl
  · unfold countPairs
    split
    · exact maxExamples_foldl (fun survey second => survey.maxExamples_countPair token second) _ _
    · rfl

/-- Where the number of examples can be used a chart is observed. -/
theorem run_record {survey : Survey} {limit : Limit} (hexamples : survey.maxExamples = .ok limit)
    (grammar : Grammar) (chart : Chart) :
    (record grammar chart).run survey = (.ok ⟨⟩, survey.observe grammar chart) := by
  rw [record, run_read_bind]
  split
  next => rfl
  next =>
    rw [hexamples]
    rfl

end Survey

end Motif
