import Motif.Chart.Report
import Motif.CommandLine.Desk
import Motif.CommandLine.Flags
import Motif.Json.Parser
import Motif.Json.Printer
import Motif.Registry.Table
import Motif.Survey.Report
import Motif.Training.Trainer

/-!
# The program

Four commands: `train` learns patterns from a corpus, `parse` parses text with a saved table,
`compile` shows the descriptions of one pattern, and `table` prints a pattern table.
-/

namespace Motif.CommandLine

/-- What the arguments ask for. A path that is nothing can be neither read nor written, and no kind
can be compared with nothing. -/
inductive Invocation where
  | train (corpus : Option String) (changes : List (String × Json))
      (config patterns save : Option String) (report : Bool)
  | parse (patterns : Option String) (text input : Option String) (kind : Option Kind)
      (json : Bool) (out : Option String)
  | compile (text : String) (patterns : Option String)
  | table (patterns : Option String) (out : Option String)
deriving Repr

/-! ## Arguments -/

/-- A flag with a value of any form. -/
def valueFlag (key : String) (accepts : String → Bool := fun _ => true) : Flag where
  key
  spellings := ["--" ++ key]
  effect := .value accepts

/-- The flag that asks for help. -/
def helpFlag : Flag where
  key := "help"
  spellings := ["-h", "--help"]
  effect := .answer ""

/-- The flag that asks for the version. -/
def versionFlag : Flag where
  key := "version"
  spellings := ["-V", "--version"]
  effect := .answer "tokenforge 0.1\n"

/-- The text is an integer. -/
def isInteger (text : String) : Bool :=
  (Text.readInt text.toList).isOk

/-- The commands with their flags. -/
def commands : List Command := [
  { name := "train"
    flags := [
      helpFlag, valueFlag "corpus", valueFlag "iterations" isInteger,
      valueFlag "strategy" StrategyName.labels.contains, valueFlag "config", valueFlag "patterns",
      valueFlag "save-patterns", ⟨"report", ["--report"], .switch⟩,
      ⟨"verbose", ["-v", "--verbose"], .switch⟩]
    required := ["corpus"] },
  { name := "parse"
    flags := [
      helpFlag, valueFlag "patterns", valueFlag "text", valueFlag "input",
      valueFlag "min-kind" fun text => (Kind.ofName? text).isSome,
      valueFlag "format" ["text", "json"].contains, valueFlag "out"]
    required := ["patterns"]
    group := ["text", "input"] },
  { name := "compile"
    flags := [helpFlag, valueFlag "expr", valueFlag "patterns"]
    required := ["expr"] },
  { name := "table"
    flags := [helpFlag, valueFlag "patterns", valueFlag "out"] }]

/-- A list without items stands for a setting that is set to nothing. -/
def settingOf (value : Option Json) : Json :=
  value.getD (.array [])

/-- The number of iterations that a value means. -/
def iterationsOf (value : Option String) : Json :=
  settingOf (value.bind fun text => (Text.readInt text.toList).toOption.map Json.int)

/-- The settings that the readings of a command change. -/
def settingChanges (readings : Readings) : List (String × Json) :=
  let iterations := (readings.set.lookup "iterations").map iterationsOf
  let strategies := (readings.values "strategy").map fun name => settingOf (name.map .string)
  (iterations.map fun count => ("iterations", count)).toList ++
    if strategies.isEmpty then [] else [("strategies", .array strategies)]

/-- The path to which a command writes. -/
def outOf (readings : Readings) : Option String :=
  if readings.isSet "out" then readings.value? "out" else some Desk.standard

/-- The least kind that a command lists. -/
def leastKind (readings : Readings) : Option Kind :=
  if readings.isSet "min-kind" then (readings.value? "min-kind").bind Kind.ofName?
  else some .basics

/-- What the readings of a command ask for. -/
def Invocation.ofReadings (command : String) (readings : Readings) : Invocation :=
  let patterns := readings.value? "patterns"
  if command = "train" then
    .train (readings.value? "corpus") (settingChanges readings) (readings.value? "config") patterns
      (readings.value? "save-patterns") (readings.isSet "report")
  else if command = "parse" then
    .parse patterns (readings.value? "text") (readings.value? "input") (leastKind readings)
      (readings.value? "format" = some "json") (outOf readings)
  else if command = "compile" then .compile ((readings.value? "expr").getD "") patterns
  else .table patterns (outOf readings)

/-- What the arguments of the program ask for. -/
def Invocation.ofArguments (arguments : List String) : Except Ending Invocation := do
  let (command, readings) ← readArguments [helpFlag, versionFlag] commands arguments
  return ofReadings command readings

/-! ## Commands -/

/-- The registry after an operation on an empty one. -/
def registryOf (action : Registry.Action Unit) : Except Fault Registry :=
  match action.run {} with
  | (.ok _, registry) => .ok registry
  | (.error fault, _) => .error fault

/-- A path for reading or writing, which nothing is not. -/
def neededPath : Option String → Except Fault String
  | some path => .ok path
  | none => .error .illTyped

/-- The registry of a saved table. -/
def loadTable (path : String) : Desk.Action Registry := do
  registryOf (Registry.Table.read (← Desk.read path))

/-- A path that is not empty. -/
def given (path : Option String) : Option String :=
  path.filter fun path => !path.isEmpty

/-- The registry of a saved table, or the basic patterns if no table is given. -/
def loadRegistry (path : Option String) : Desk.Action Registry :=
  match given path with
  | some path => loadTable path
  | none => registryOf Registry.registerBasics

/-- The options of a training run: those of a file, with some set by arguments. -/
def trainOptions (config : Option String) (changes : List (String × Json)) :
    Desk.Action TrainOptions := do
  let settings ← match given config with
    | none => pure Settings.defaults
    | some path => Settings.ofJson (← Json.parse (← Desk.readFile path))
  TrainOptions.ofSettings (settings.change changes)

/-- The lines about an iteration. -/
def summaryLines (summary : Summary) : List String :=
  ("Iteration " ++ toString summary.iteration ++ ": " ++ toString summary.proposed.length ++
    " proposed, " ++ toString summary.rejected ++ " rejected, " ++
    toString summary.culled.length ++ " culled, " ++ toString summary.patterns ++ " patterns") ::
    summary.named.map fun name => "  named " ++ name

/-- The lines together, each ended. -/
def textOfLines (lines : List String) : String :=
  "\n".intercalate lines ++ "\n"

/-- Runs an operation of a trainer and gives the trainer after it. -/
def runTrainer {α : Type} (trainer : Trainer) (action : Trainer.Action α) :
    Except Fault (α × Trainer) :=
  match action.run trainer with
  | (.ok result, trainer) => .ok (result, trainer)
  | (.error fault, _) => .error fault

/-- Learns patterns from a corpus. -/
def runTrain (corpus : Option String) (changes : List (String × Json))
    (config patterns save : Option String) (report : Bool) : Desk.Action Unit := do
  let registry ← match given patterns with
    | some path => loadTable path
    | none => pure {}
  let options ← trainOptions config changes
  let trainer ← Trainer.create options registry
  let text ← Desk.read (← neededPath corpus)
  let (paragraphs, trainer) ← runTrainer trainer (Trainer.loadCorpus text)
  let (summaries, trainer) ← runTrainer trainer Trainer.train
  let heading := "Trained on " ++ toString paragraphs.length ++ " paragraphs"
  let reportLines ← if report then do
      pure ["", ← trainer.survey.report trainer.registry]
    else pure []
  let lines := heading :: (summaries.flatMap summaryLines ++ reportLines)
  Desk.write (textOfLines lines) Desk.standard
  match given save with
  | some path => Desk.write (← Registry.Table.write trainer.registry) path
  | none => return

/-- The paragraphs to be parsed: those of a file, or a text as a single one. -/
def parsedParagraphs (registry : Registry) (text input : Option String) :
    Desk.Action (List String) := do
  match given input, text with
  | some path, _ => Corpus.load (← Desk.read path) registry.alphabet
  | none, some text => do
    let paragraph := Corpus.normalize text
    Corpus.validate paragraph registry.alphabet 1
    return [paragraph]
  | none, none => throw .noText

/-- The chart of a paragraph with its holes. -/
def chartOf (registry : Registry) (paragraph : String) : Except Fault Chart := do
  let chart ← registry.parse paragraph
  return { chart with holes := chart.findHoles registry.grammar }

/-- The least kind of the tokens of charts that are listed. It is not needed where there is no
token. -/
def neededKind (kind : Option Kind) (charts : List Chart) : Except Fault Kind :=
  match kind with
  | some kind => .ok kind
  | none => if charts.all fun chart => chart.tokens.isEmpty then .ok .basics else .error .illTyped

/-- Parses text with a saved table. -/
def runParse (patterns : Option String) (text input : Option String) (kind : Option Kind)
    (json : Bool) (out : Option String) : Desk.Action Unit := do
  let registry ← loadTable (← neededPath patterns)
  let paragraphs ← parsedParagraphs registry text input
  let charts ← paragraphs.mapM fun paragraph => chartOf registry paragraph
  let kind ← neededKind kind charts
  if json then
    let values ← charts.mapM fun chart => chart.toJson registry kind
    Desk.write ((Json.array values).pretty ++ "\n") (← neededPath out)
  else
    let listings ← charts.mapM fun chart => chart.listing registry kind
    Desk.write (Desk.endLine ("\n".intercalate listings)) (← neededPath out)

/-- The line about the pattern that a compiled one is equivalent to. -/
def sameAsLines (pattern : Pattern) : Registry.Action (List String) := do
  match ← Registry.equivalent? pattern with
  | none => return []
  | some serial =>
    match (← getThe Registry).pattern? serial with
    | none => return []
    | some other => return ["Same as: " ++ (← other.identity)]

/-- The lines about a compiled pattern. -/
def compileLines (text : String) : Registry.Action (List String) := do
  let registry ← getThe Registry
  let pattern ← registry.compile text
  let described ← registry.describe pattern
  let full ← Registry.describeFully none pattern
  let sameAs ← sameAsLines pattern
  return [
    "Pattern: " ++ described,
    "Full:    " ++ full,
    "Penalty: " ++ toString pattern.penalty] ++ sameAs

/-- Shows the descriptions of one pattern. -/
def runCompile (text : String) (patterns : Option String) : Desk.Action Unit := do
  let registry ← loadRegistry patterns
  let lines ← ((compileLines text).run registry).1
  Desk.write (textOfLines lines) Desk.standard

/-- Prints a pattern table. -/
def runTable (patterns : Option String) (out : Option String) : Desk.Action Unit := do
  let registry ← loadRegistry patterns
  Desk.write (← Registry.Table.write registry) (← neededPath out)

/-- Runs a command. -/
def Invocation.run : Invocation → Desk.Action Unit
  | train corpus changes config patterns save report =>
    runTrain corpus changes config patterns save report
  | parse patterns text input kind json out => runParse patterns text input kind json out
  | compile text patterns => runCompile text patterns
  | table patterns out => runTable patterns out

/-- How the program ends. -/
inductive Result where
  | exit (code : Nat)
  | failure (fault : Fault)
deriving Repr

/-- Runs the program with its arguments at a desk. -/
def run (arguments : List String) (desk : Desk) : Result × Desk :=
  match Invocation.ofArguments arguments with
  | .error .misused => (.exit 2, desk)
  | .error (.answered output) => (.exit 0, { desk with output := desk.output ++ output })
  | .ok invocation =>
    match invocation.run.run desk with
    | (.ok _, desk) => (.exit 0, desk)
    | (.error fault, desk) => (.failure fault, desk)

/-- The paths that a command reads. -/
def Invocation.reads : Invocation → List String
  | train corpus _ config patterns _ _ => [corpus, config, patterns].filterMap id
  | parse patterns _ input _ _ _ => [patterns, input].filterMap id
  | compile _ patterns => patterns.toList
  | table patterns _ => patterns.toList

/-- The paths that a command writes. -/
def Invocation.writes : Invocation → List String
  | train _ _ _ _ save _ => save.toList
  | parse _ _ _ _ _ out => out.toList
  | compile _ _ => []
  | table _ out => out.toList

end Motif.CommandLine
