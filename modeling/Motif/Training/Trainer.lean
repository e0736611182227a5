import Motif.Corpus
import Motif.Proposal
import Motif.Registry.Alphabet
import Motif.Registry.Maintenance
import Motif.Training.Settings

/-!
# Training

Training learns patterns from paragraphs. In each iteration every paragraph is parsed, the charts
are surveyed, the strategies make proposals, of which the new ones become experiments, the least
productive experiments are culled, and experiments of a known shape get its name.
-/

namespace Motif

/-- What a trainer is doing. -/
inductive Stage where
  | init
  | clearSurvey
  | parse
  | survey
  | propose
  | cull
  | name
  | done
deriving DecidableEq, Repr, Inhabited

/-- The name of a stage. -/
def Stage.label : Stage → String
  | init => "init"
  | clearSurvey => "clear_survey"
  | parse => "parse"
  | survey => "survey"
  | propose => "propose"
  | cull => "cull"
  | name => "name"
  | done => "done"

/-- Something notable that happened in training. -/
inductive Event where
  | iterationStarted (patterns : Nat)
  | paragraphParsed (paragraph tokens holes : Nat)
  | surveyCompleted (charts pairs : Nat)
  | proposalRejected (text strategy error : String)
  | patternProposed (text strategy reason : String) (id : Int) (new : Bool)
  | patternCulled (id score : Int)
  | patternNamed (id : Int) (name : String)
  | iterationFinished (proposed culled : Nat) (named : List String) (patterns : Nat)
deriving DecidableEq, Repr

/-- What an iteration has done. -/
structure Summary where
  iteration : Int
  paragraphs : Nat := 0
  /-- The ids of the patterns proposed, each once. -/
  proposed : List Int := []
  rejected : Nat := 0
  /-- The ids of the patterns removed. -/
  culled : List Int := []
  named : List String := []
  patterns : Nat := 0
deriving DecidableEq, Repr, Inhabited

/-- The state of a training run. -/
structure Trainer where
  options : TrainOptions := {}
  registry : Registry := {}
  strategies : List Strategy := []
  survey : Survey := {}
  paragraphs : List String := []
  /-- The charts of the current iteration. -/
  charts : List Chart := []
  iteration : Int := 0
  stage : Stage := .init
  /-- The ids below this one were known when the last survey was taken; zero before the first. -/
  surveyedUntil : Int := 0
  /-- What has happened, the last event first, each with its iteration. -/
  events : List (Int × Event) := []
deriving Inhabited

/-- The strategy of a name. -/
def Strategy.ofName (options : TrainOptions) : StrategyName → Strategy
  | .pairs => .pairs options.pairThreshold options.maxPairProposals
  | .stretches => .stretches 4

/-- The shapes that get a name when they are found, each with its pattern text. Later ones may
refer to the names of earlier ones. -/
def knownShapes : List (String × String) := [
  ("Word", "<Letter! Letter+"),
  ("Number", "<Digit! Digit+"),
  ("Spaces", "<Space! Space+"),
  ("Phrase", "<( Word Space )! ( Word Space )+ Word")]

namespace Trainer

/-- An operation of a trainer. What it has changed stays changed also if it fails. -/
abbrev Action (α : Type) := ExceptT Fault (StateM Trainer) α

/-- A trainer on a registry. -/
def create (options : TrainOptions) (registry : Registry) : Except Fault Trainer := do
  let strategies := (← options.strategies).map (Strategy.ofName options)
  let survey : Survey := { maxExamples := options.maxExamples, minKind := options.surveyMinKind }
  return { options, registry, strategies, survey }

/-- Runs an operation on the trainer's registry. -/
def onRegistry {α : Type} (action : Registry.Action α) : Action α :=
  ExceptT.mk do
    let trainer ← get
    let (result, registry) := action.run trainer.registry
    set { trainer with registry }
    return result

/-- Runs an operation on the trainer's survey. -/
def onSurvey {α : Type} (action : Survey.Action α) : Action α :=
  ExceptT.mk do
    let trainer ← get
    let (result, survey) := action.run trainer.survey
    set { trainer with survey }
    return result

/-- Notes an event. -/
def emit (event : Event) : Action Unit :=
  modify fun trainer => { trainer with events := (trainer.iteration, event) :: trainer.events }

/-- Enters a stage. -/
def enter (stage : Stage) : Action Unit :=
  modify fun trainer => { trainer with stage }

/-- Gives an empty registry the basic patterns. -/
def prepare : Action Unit := do
  if (← getThe Trainer).registry.size = 0 then onRegistry Registry.registerBasics

/-- Takes the paragraphs of a text. -/
def loadCorpus (text : String) : Action (List String) := do
  prepare
  let paragraphs ← Corpus.load text (← getThe Trainer).registry.alphabet
  modify fun trainer => { trainer with paragraphs }
  return paragraphs

/-- Takes paragraphs as they are. -/
def loadParagraphs (paragraphs : List String) : Action Unit := do
  prepare
  modify fun trainer => { trainer with paragraphs }

/-- The depth down to which a paragraph is matched. It is not used where nothing is tried. -/
def depthFor (trainer : Trainer) (paragraph : String) : Except Fault Int :=
  if paragraph.isEmpty || trainer.registry.size = 0 then .ok Chart.defaultDepth
  else do return (← trainer.options.maxDepth).getD Chart.unreachedDepth

/-- Parses paragraphs, the first of which has a number, and finds their holes. -/
def parseFrom : Nat → List String → Action Unit
  | _, [] => return
  | number, paragraph :: rest => do
    let trainer ← getThe Trainer
    let parsed ← trainer.registry.parse paragraph (← trainer.depthFor paragraph)
    let holes := parsed.findHoles trainer.registry.grammar trainer.options.holeMinKind
    let chart := { parsed with holes }
    modify fun trainer => { trainer with charts := trainer.charts ++ [chart] }
    emit (.paragraphParsed number chart.tokens.length chart.holes.length)
    parseFrom (number + 1) rest

/-- Surveys the charts of the iteration. -/
def surveyCharts : Action Unit := do
  let trainer ← getThe Trainer
  trainer.charts.forM fun chart => onSurvey (Survey.record trainer.registry.grammar chart)
  modify fun trainer => { trainer with surveyedUntil := trainer.registry.nextId }
  let survey := (← getThe Trainer).survey
  emit (.surveyCompleted survey.charts survey.pairs.size)

/-- Registers a proposal as an experiment. The answer is the id of its pattern, unless the text is
refused. -/
def registerProposal (proposal : Proposal) : Action (Option Int) := do
  let before := (← getThe Trainer).registry.size
  let outcome ← ExceptT.mk do
    match ← (onRegistry (Registry.registerExperiment proposal.text)).run with
    | .ok serial => return .ok (some serial)
    | .error (.pattern fault) =>
      let _ ← (emit (.proposalRejected proposal.text proposal.strategy fault.message)).run
      return .ok none
    | .error fault => return .error fault
  match outcome with
  | none => return none
  | some serial =>
    let registry := (← getThe Trainer).registry
    let id := ((registry.pattern? serial).map Pattern.id).getD (-1)
    emit (.patternProposed proposal.text proposal.strategy proposal.reason id
      (before < registry.size))
    return some id

/-- Registers proposals in order and counts them in the summary. -/
def registerAll : List Proposal → Summary → Action Summary
  | [], summary => return summary
  | proposal :: rest, summary => do
    match ← registerProposal proposal with
    | none => registerAll rest { summary with rejected := summary.rejected + 1 }
    | some id =>
      registerAll rest <|
        if summary.proposed.contains id then summary
        else { summary with proposed := summary.proposed ++ [id] }

/-- Runs strategies in order, each on what the ones before it have left. -/
def runStrategies : List Strategy → Summary → Action Summary
  | [], summary => return summary
  | strategy :: rest, summary => do
    let trainer ← getThe Trainer
    let survey := strategy.surveyAfter trainer.registry trainer.survey
    modify fun trainer => { trainer with survey }
    let proposals ← onRegistry (strategy.propose trainer.survey trainer.charts)
    runStrategies rest (← registerAll proposals summary)

/-- How productive a pattern is: what it covers less what it costs. -/
def score (survey : Survey) (pattern : Pattern) : Int :=
  (survey.statsFor pattern.id).coverage - pattern.penalty

/-- The surveyed experiments with the best first; equal ones are ranked by id. -/
def rankedExperiments (trainer : Trainer) : List (Serial × Pattern) :=
  let limit :=
    if trainer.surveyedUntil = 0 then trainer.registry.nextId else trainer.surveyedUntil
  let experiments := trainer.registry.registered.filter fun entry =>
    entry.2.kind = .experimental && entry.2.id < limit
  let score := score trainer.survey
  experiments.mergeSort fun a b =>
    score b.2 < score a.2 || (score a.2 = score b.2 && a.2.id ≤ b.2.id)

/-- The experiments beyond the number to be kept, the latest first. -/
def doomed (trainer : Trainer) (kept : Int) : List (Serial × Pattern) :=
  (Text.dropTo kept trainer.rankedExperiments).mergeSort fun a b => b.2.id ≤ a.2.id

/-- Removes those of the patterns to which no other one refers, in order. -/
def removeUnused : List (Serial × Pattern) → Action (List Int)
  | [] => return []
  | (serial, pattern) :: rest => do
    let trainer ← getThe Trainer
    if !(trainer.registry.dependents serial pattern.id).isEmpty then removeUnused rest
    else
      onRegistry (Registry.unregister serial pattern)
      emit (.patternCulled pattern.id (score trainer.survey pattern))
      return pattern.id :: (← removeUnused rest)

/-- Drops the least productive experiments among those that have been surveyed. One that another
pattern refers to is kept. -/
def cullExperiments : Action (List Int) := do
  let trainer ← getThe Trainer
  removeUnused (trainer.doomed (← trainer.options.keepExperiments))

/-- The first experiment with a full description. -/
def firstExperiment (wanted : String) : List (Serial × Pattern) →
    Registry.Action (Option (Serial × Pattern))
  | [] => return none
  | (serial, pattern) :: rest => do
    if pattern.kind ≠ .experimental then firstExperiment wanted rest
    else
      let description ← Registry.fullDescription serial pattern
      if description = wanted then return some (serial, pattern)
      else firstExperiment wanted rest

/-- The experiment that has a shape, if the shape compiles. -/
def experimentOfShape (text : String) : Registry.Action (Option (Serial × Pattern)) := do
  let registry ← getThe Registry
  match registry.compile text with
  | .error (.pattern _) => return none
  | .error fault => throw fault
  | .ok shape =>
    let wanted ← Registry.describeFully none shape
    firstExperiment wanted registry.registered

/-- Gives the first experiment of each shape its name, unless the name is taken. -/
def nameShapes : List (String × String) → Action (List Serial)
  | [] => return []
  | (name, text) :: rest => do
    if ((← getThe Trainer).registry.named? name).isSome then nameShapes rest
    else
      match ← onRegistry (experimentOfShape text) with
      | none => nameShapes rest
      | some (serial, pattern) =>
        onRegistry (Registry.rename serial pattern name (some .derived))
        emit (.patternNamed pattern.id name)
        return serial :: (← nameShapes rest)

/-- Gives experiments of a known shape its name; they become derived patterns. -/
def nameKnownPatterns : Action (List Serial) :=
  nameShapes knownShapes

/-- The names of patterns. -/
def namesOf (registry : Registry) (serials : List Serial) : List String :=
  (serials.filterMap registry.pattern?).filterMap Pattern.name

/-- The paragraphs that are used. -/
def usedParagraphs (trainer : Trainer) : Except Fault (List String) := do
  return (← trainer.options.paragraphLimit).cut trainer.paragraphs

/-- Runs one iteration. -/
def trainIteration : Action Summary := do
  modify fun trainer => { trainer with iteration := trainer.iteration + 1 }
  emit (.iterationStarted (← getThe Trainer).registry.size)
  enter .clearSurvey
  modify fun trainer => { trainer with survey := trainer.survey.clear, charts := [] }
  enter .parse
  parseFrom 1 (← (← getThe Trainer).usedParagraphs)
  enter .survey
  surveyCharts
  enter .propose
  let trainer ← getThe Trainer
  let summary ← runStrategies trainer.strategies
    { iteration := trainer.iteration, paragraphs := trainer.charts.length }
  enter .cull
  let culled ← cullExperiments
  enter .name
  let serials ← nameKnownPatterns
  let registry := (← getThe Trainer).registry
  let named := (namesOf registry serials).filter fun name => !name.isEmpty
  emit (.iterationFinished summary.proposed.length culled.length named registry.size)
  return { summary with culled, named, patterns := registry.size }

/-- Runs so many iterations. -/
def trainTimes : Nat → Action (List Summary)
  | 0 => return []
  | count + 1 => do
    let summary ← trainIteration
    return summary :: (← trainTimes count)

/-- Trains for a number of iterations, or else for as many as the options say. -/
def train (iterations : Option (Setting Int) := none) : Action (List Summary) := do
  prepare
  let count ← iterations.getD (← getThe Trainer).options.iterations
  let summaries ← trainTimes count.toNat
  enter .done
  return summaries

end Trainer

end Motif
