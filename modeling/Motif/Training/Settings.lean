import Motif.Double.Shortest
import Motif.Kind.Json
import Motif.Setting

/-!
# Settings

The settings of a training run are written as the members of a JSON object, of which each may be
left out. They are kept as written, except that kinds are read by name or rank and a single
strategy may stand without brackets. What type the other values must have shows when they are used.
-/

namespace Motif

/-- The settings of a training run, by key. -/
structure Settings where
  members : List (String × Json)
  /-- The kinds that were set to values not read. -/
  unread : List String := []
deriving Repr, Inhabited

namespace Settings

/-- Every key with the value that it has by default. -/
def defaults : Settings where
  members := [
    ("iterations", .int 1),
    ("strategies", .array [.string "pairs", .string "stretches"]),
    ("pair_threshold", .int 3),
    ("max_pair_proposals", .int 50),
    ("keep_experiments", .int 30),
    ("max_examples", .int 10),
    ("survey_min_kind", .string Kind.literal.label),
    ("hole_min_kind", .string Kind.derived.label),
    ("max_depth", .int 256),
    ("paragraph_limit", .null)]

/-- The keys of all settings. -/
def keys : List String :=
  defaults.members.map Prod.fst

/-- The keys of the settings that are kinds. -/
def kindKeys : List String := ["survey_min_kind", "hole_min_kind"]

/-- The settings with some members set to other values. -/
def change (settings : Settings) (changes : List (String × Json)) : Settings where
  members := changes.foldl (fun members change => Json.setMember change.1 change.2 members)
    settings.members
  unread := settings.unread ++ (changes.map Prod.fst).filter kindKeys.contains

/-- The value of a setting, `null` for an unknown one. -/
def value (settings : Settings) (key : String) : Json :=
  (settings.members.lookup key).getD .null

/-- The keys that are no settings, each once and in order. -/
def unknownKeys (written : List String) : List String :=
  (written.filter fun key => !keys.contains key).eraseDups.mergeSort fun a b => a ≤ b

/-- The items of a value: those of a list, the keys of an object, or the characters of a text. -/
def itemsOf : Json → Except Fault (List Json)
  | .array items => .ok items
  | .object members => .ok (members.map fun member => .string member.1)
  | .string text => .ok (text.toList.map fun c => .string (String.ofList [c]))
  | _ => .error .illTyped

/-- A list of strategies; a text is the only one. -/
def strategyList : Json → Except Fault Json
  | .string name => .ok (.array [.string name])
  | value => do return .array (← itemsOf value)

/-- The members written, with a value of one key replaced by what `read` makes of it. -/
def readMember (key : String) (read : Json → Except Fault Json)
    (members : List (String × Json)) : Except Fault (List (String × Json)) :=
  match members.lookup key with
  | none => .ok members
  | some value => do return Json.setMember key (← read value) members

/-- Reads a kind into its label. -/
def kindLabel (value : Json) : Except Fault Json := do
  return .string (← Kind.ofJson value).label

/-- The settings written as the members of an object. -/
def ofMembers (members : List (String × Json)) : Except Fault Settings := do
  let unknown := unknownKeys (members.map Prod.fst)
  if !unknown.isEmpty then throw (.unknownOptions unknown)
  let members ← readMember "survey_min_kind" kindLabel members
  let members ← readMember "hole_min_kind" kindLabel members
  let members ← readMember "strategies" strategyList members
  return { defaults.change members with unread := [] }

/-- The text of a value that is one. -/
def textOf : Json → Except Fault String
  | .string text => .ok text
  | _ => .error .illTyped

/-- The settings written as a JSON value. A list or text without any item stands for no settings;
items would be keys that have no values. -/
def ofJson : Json → Except Fault Settings
  | .object members => ofMembers members
  | value => do
    let written ← (← itemsOf value).mapM textOf
    let unknown := unknownKeys written
    if !unknown.isEmpty then throw (.unknownOptions unknown)
    match written with
    | [] => ofMembers []
    | first :: _ => throw (.keysOnly first.length)

/-- The settings with further members set, which must be known but are not read. -/
def withChanges (settings : Settings) (changes : List (String × Json)) : Except Fault Settings :=
  if (unknownKeys (changes.map Prod.fst)).isEmpty then .ok (settings.change changes)
  else .error .illTyped

/-- All members, the strategies as a list and the kinds by their labels. A value that has not been
read as a kind has no label. -/
def listing (settings : Settings) : Except Fault (List (String × Json)) := do
  let strategies ← itemsOf (settings.value "strategies")
  if !settings.unread.isEmpty then throw .noText
  return Json.setMember "strategies" (.array strategies) settings.members

end Settings

/-- A strategy that can be asked for. -/
inductive StrategyName where
  | pairs
  | stretches
deriving DecidableEq, Repr, Inhabited

namespace StrategyName

/-- The written name of a strategy. -/
def label : StrategyName → String
  | pairs => "pairs"
  | stretches => "stretches"

/-- All strategies that can be asked for. -/
def all : List StrategyName := [pairs, stretches]

/-- The written names of all strategies. -/
def labels : List String :=
  all.map label

/-- The strategy of a written name. -/
def ofLabel? (label : String) : Option StrategyName :=
  all.find? fun name => name.label = label

/-- The word for a value that is neither a text nor a container. -/
def word? : Json → Option String
  | .null => some "None"
  | .bool value => some (if value then "True" else "False")
  | .int value => some (toString value)
  | .real value => some (value.text "nan" "inf")
  | _ => none

/-- The strategy that a value names. Any word is looked for, but a container is no word. -/
def ofJson : Json → Except Fault StrategyName
  | .string label =>
    match ofLabel? label with
    | some name => .ok name
    | none => .error (.unknownStrategy label labels)
  | value =>
    match word? value with
    | some word => .error (.unknownStrategy word labels)
    | none => .error .illTyped

theorem ofLabel?_label (name : StrategyName) : ofLabel? name.label = some name := by
  cases name <;> rfl

end StrategyName

/-- The settings of a training run in use. -/
structure TrainOptions where
  iterations : Setting Int := .ok 1
  /-- The strategies that make proposals in each iteration, in order. -/
  strategies : Setting (List StrategyName) := .ok [.pairs, .stretches]
  /-- A pair must be seen more often than this. -/
  pairThreshold : Setting Limit := .ok (some 3)
  maxPairProposals : Setting Limit := .ok (some 50)
  /-- The number of experiments that survive each cull. -/
  keepExperiments : Setting Int := .ok 30
  maxExamples : Setting Limit := .ok (some 10)
  /-- Pairs of patterns from this kind on are counted. -/
  surveyMinKind : Kind := .literal
  /-- Tokens of patterns from this kind on close holes. -/
  holeMinKind : Kind := .derived
  maxDepth : Setting Limit := .ok (some 256)
  /-- Only so many paragraphs are used, if there is a limit. -/
  paragraphLimit : Setting Limit := .ok none
deriving Repr, Inhabited

namespace TrainOptions

/-- The integer a value stands for. -/
def wholeOf : Json → Setting Int
  | .int value => .ok value
  | .bool value => .ok (if value then 1 else 0)
  | _ => .error .illTyped

/-- The place a value stands for, or none. -/
def placeOf : Json → Setting Limit
  | .null => .ok none
  | value => do return some (← wholeOf value)

/-- A bound that counts may exceed: those above a number are the ones above its floor. -/
def ceilingOf : Json → Setting Limit
  | .real (.infinite true) => .ok (some (-1))
  | .real value => .ok value.floor?
  | value => do return some (← wholeOf value)

/-- A bound that counts may stay below: those below a number are the ones below its ceiling. No
count is below what is undefined. -/
def roomOf : Json → Setting Limit
  | .real (.infinite false) => .ok none
  | .real value => .ok (some (value.ceil?.getD 0))
  | value => do return some (← wholeOf value)

/-- The strategies that a list names. -/
def strategiesOf (value : Json) : Setting (List StrategyName) := do
  (← Settings.itemsOf value).mapM StrategyName.ofJson

/-- The options that settings stand for. -/
def ofSettings (settings : Settings) : Except Fault TrainOptions := do
  return {
    iterations := wholeOf (settings.value "iterations")
    strategies := strategiesOf (settings.value "strategies")
    pairThreshold := ceilingOf (settings.value "pair_threshold")
    maxPairProposals := placeOf (settings.value "max_pair_proposals")
    keepExperiments := (placeOf (settings.value "keep_experiments")).map fun place => place.getD 0
    maxExamples := roomOf (settings.value "max_examples")
    surveyMinKind := ← Kind.ofJson (settings.value "survey_min_kind")
    holeMinKind := ← Kind.ofJson (settings.value "hole_min_kind")
    maxDepth := ceilingOf (settings.value "max_depth")
    paragraphLimit := placeOf (settings.value "paragraph_limit") }

end TrainOptions

end Motif
