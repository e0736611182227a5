import Motif.Registry.Description
import Motif.Survey.Basic
import Motif.Text.Integer

/-!
# Survey reports

A report lists the patterns that match most from the start of the texts, each with its longest
examples, and then the most frequent pairs.
-/

namespace Motif.Survey

/-- A pattern is listed if it is more than a literal and has matched at all. -/
def isListed (stats : PatternStats) (pattern : Pattern) : Bool :=
  Kind.basics ≤ pattern.kind && stats.matchCount ≠ 0

/-- The patterns of a survey that are registered, above literals, and matched at all, with the
best first: by leading characters, then by coverage, then by id. -/
def rankedPatterns (survey : Survey) (registry : Registry) : List (PatternStats × Pattern) :=
  let known := survey.stats.toList.filterMap fun entry =>
    match registry.byId? entry.1 with
    | some pattern => if isListed entry.2 pattern then some (entry.2, pattern) else none
    | none => none
  known.mergeSort fun a b =>
    b.1.leading < a.1.leading || (a.1.leading = b.1.leading &&
      (b.1.coverage < a.1.coverage || (a.1.coverage = b.1.coverage && a.2.id ≤ b.2.id)))

/-- The lines about a pattern, with at most `examples` of its examples, the longest first. -/
def patternLines (registry : Registry) (examples : Int) (stats : PatternStats)
    (pattern : Pattern) : Except Fault (List String) := do
  let id ← Pattern.writeId pattern.id
  let display ← registry.display pattern
  let longest := Text.takeTo examples
    (stats.examples.mergeSort fun a b => b.length ≤ a.length)
  let place := " - [" ++ id ++ "] - "
  return ("- " ++ Text.grouped stats.leading ++ place ++ display) ::
    longest.map fun text => "  | '" ++ text ++ "'"

/-- The line about a pair. -/
def pairLine (registry : Registry) (key : PairKey) (count : Int) : Except Fault String := do
  let ids := match key with
    | [id] => [id, id]
    | ids => ids
  let names ← (ids.filterMap registry.byId?).mapM registry.display
  return "- " ++ " ".intercalate names ++ ": " ++ toString count

/-- The most frequent pairs, at most `limit` of them; equally frequent ones keep their order. -/
def commonPairs (survey : Survey) (limit : Int) : List (PairKey × Int) :=
  let pairs := survey.pairs.toList.map fun entry => (entry.1, entry.2.count)
  (pairs.mergeSort fun a b => b.2 ≤ a.2).take limit.toNat

/-- The report on a survey. -/
def report (survey : Survey) (registry : Registry) (limit : Int := 200) (examples : Int := 3) :
    Except Fault String := do
  let best := Text.takeTo limit (survey.rankedPatterns registry)
  let blocks ← best.mapM fun entry => patternLines registry examples entry.1 entry.2
  let pairs := survey.commonPairs limit
  let pairLines ← pairs.mapM fun entry => pairLine registry entry.1 entry.2
  let heading := if pairs.isEmpty then [] else ["", "Pairs:"]
  return "\n".intercalate (blocks.flatten ++ heading ++ pairLines)

end Motif.Survey
