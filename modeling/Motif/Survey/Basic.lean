import Motif.ArrivalMap
import Motif.Setting
import Motif.Survey.Holes
import Motif.Survey.Runs

/-!
# Surveys

A survey gathers, over a number of charts, how well each pattern does and how often pairs of
patterns stand next to each other. A pair that has been turned into a proposal is retired and is
not counted any more.
-/

namespace Motif

/-- The ids of two adjacent patterns, or the single id of a pattern next to itself. -/
abbrev PairKey := List Int

/-- The key of two adjacent patterns. -/
def pairKey (first second : Int) : PairKey :=
  if first = second then [first] else [first, second]

/-- How well a pattern does. -/
structure PatternStats where
  matchCount : Int := 0
  /-- The number of characters covered. -/
  coverage : Int := 0
  /-- The length of the longest token. -/
  longest : Int := 0
  /-- The number of characters matched from the very start of a chart. -/
  leading : Int := 0
  examples : List String := []
deriving DecidableEq, Repr, Inhabited

/-- How often a pair occurs. -/
structure PairStats where
  count : Int := 0
  examples : List String := []
deriving DecidableEq, Repr, Inhabited

/-- Statistics over charts. -/
structure Survey where
  /-- The greatest number of examples kept. -/
  maxExamples : Setting Limit := .ok (some 10)
  /-- Only pairs of patterns from this kind on are counted. -/
  minKind : Kind := .literal
  stats : ArrivalMap Int PatternStats compare := {}
  pairs : ArrivalMap PairKey PairStats compare := {}
  /-- The keys that have been turned into proposals. -/
  retired : Std.TreeSet PairKey compare := {}
  /-- The number of charts. -/
  charts : Nat := 0
deriving Inhabited

namespace Survey

/-- An operation on a survey. What it has changed stays changed also if it fails. -/
abbrev Action (α : Type) := ExceptT Fault (StateM Survey) α

/-- Forgets all but the retired pairs. -/
def clear (survey : Survey) : Survey :=
  { survey with stats := {}, pairs := {}, charts := 0 }

/-- Forgets everything. -/
def clearAll (survey : Survey) : Survey :=
  { survey.clear with retired := {} }

/-- The statistics of a pattern. -/
def statsFor (survey : Survey) (id : Int) : PatternStats :=
  survey.stats.getD id {}

/-- Takes a pair out of the counting. -/
def retire (survey : Survey) (key : PairKey) : Survey :=
  { survey with retired := survey.retired.insert key }

/-- The number of positions in a list of spans, each given by start and end, in ascending order of
their starts; those before `covered` do not count. -/
def countFrom (covered : Int) : List (Int × Int) → Int
  | [] => 0
  | (start, stop) :: rest =>
    max 0 (stop - max start covered) + countFrom (max covered stop) rest

/-- The number of different positions in a list of spans, each given by start and end. -/
def countPositions (spans : List (Int × Int)) : Int :=
  match spans.mergeSort fun a b => a.1 ≤ b.1 with
  | [] => 0
  | (start, stop) :: rest => countFrom start ((start, stop) :: rest)

/-- The greatest number of examples kept; none is kept if the setting is of no use. -/
def exampleLimit (survey : Survey) : Limit :=
  Setting.getD survey.maxExamples (some 0)

/-- Adds a token to the statistics of its pattern, all but its coverage. -/
def countToken (maxExamples : Limit) (stats : PatternStats) (token : Token) : PatternStats :=
  { stats with
    matchCount := stats.matchCount + 1
    longest := max stats.longest token.length
    leading := if token.start = 0 then stats.leading + token.length else stats.leading
    examples :=
      if maxExamples.leavesRoom stats.examples.length && !stats.examples.contains token.text then
        stats.examples ++ [token.text]
      else stats.examples }

/-- The spans of the tokens of each pattern. -/
def spansOf (tokens : List Token) : Std.TreeMap Int (List (Int × Int)) :=
  tokens.foldl (fun spans token =>
    spans.insert token.id ((token.start, token.stop) :: spans.getD token.id [])) {}

/-- Adds the tokens of a chart to the statistics of their patterns. -/
def countTokens (survey : Survey) (tokens : List Token) : Survey :=
  let counted := tokens.foldl (fun stats token =>
    stats.update token.id {} fun old => countToken survey.exampleLimit old token) survey.stats
  let covered := (spansOf tokens).foldl (fun stats id spans =>
    stats.update id {} fun old => { old with coverage := old.coverage + countPositions spans })
    counted
  { survey with stats := covered }

/-- Counts two adjacent tokens, unless their pair is retired. -/
def countPair (survey : Survey) (first second : Token) : Survey :=
  let key := pairKey first.id second.id
  if survey.retired.contains key then survey
  else { survey with
    pairs := survey.pairs.update key {} fun old => {
      count := old.count + 1
      examples :=
        if survey.exampleLimit.leavesRoom old.examples.length then
          old.examples ++ [first.text ++ second.text]
        else old.examples } }

/-- Counts the pairs that a token forms with those that start where it ends. -/
def countPairs (chart : Chart) (counts : Token → Bool) (survey : Survey) (first : Token) :
    Survey :=
  if counts first && first.stop < chart.size then
    let seconds := (chart.startingAt first.stop).filter counts
    seconds.foldl (fun survey => survey.countPair first) survey
  else survey

/-- Adds a chart to the statistics. -/
def observe (survey : Survey) (grammar : Grammar) (chart : Chart) : Survey :=
  let tokens := chart.tokens
  let counts (token : Token) := token.reaches grammar survey.minKind
  let counted := ({ survey with charts := survey.charts + 1 }).countTokens tokens
  tokens.foldl (countPairs chart counts) counted

/-- Adds the first token of a chart, and no more. -/
def countFirst (survey : Survey) (token : Token) : Survey :=
  { survey with
    charts := survey.charts + 1
    stats := survey.stats.update token.id {} fun old => countToken survey.exampleLimit old token }

/-- Adds a chart to the statistics. If the greatest number of examples is of no use, that shows at
the first token, which stays counted. -/
def record (grammar : Grammar) (chart : Chart) : Action Unit := do
  match ← getThe Survey, chart.tokens with
  | survey, [] => set (survey.observe grammar chart)
  | survey, token :: _ =>
    match survey.maxExamples with
    | .ok _ => set (survey.observe grammar chart)
    | .error fault =>
      set (survey.countFirst token)
      throw fault

/-- The pairs seen more often than `threshold`, the most frequent first and equally frequent ones
by their keys, up to `limit` of them. -/
def rankedPairs (survey : Survey) (threshold limit : Limit) : List (PairKey × Int) :=
  let frequent := (survey.pairs.toList.map fun entry => (entry.1, entry.2.count)).filter
    fun entry => threshold.isExceeded entry.2
  limit.cut (frequent.mergeSort fun a b =>
    b.2 < a.2 || (a.2 = b.2 && (compare a.1 b.1).isLE))

/-- The best pairs under a threshold and a limit as they were set. The threshold is not used when
there are no pairs. -/
def bestPairs (survey : Survey) (threshold limit : Setting Limit) :
    Except Fault (List (PairKey × Int)) := do
  let threshold ← if survey.pairs.size = 0 then pure none else threshold
  return survey.rankedPairs threshold (← limit)

end Survey

end Motif
