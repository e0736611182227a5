import Motif.Registry.Expansion
import Motif.Survey.Basic

/-!
# Proposals

A strategy turns what a survey and its charts show into candidate pattern texts. One works on
pairs of patterns that are often adjacent, another on runs of tokens and recurring holes.
-/

namespace Motif

/-- A candidate pattern text, the strategy it comes from and the reason for it. -/
structure Proposal where
  text : String
  strategy : String
  reason : String := ""
deriving DecidableEq, Repr, Inhabited

/-- A way to find candidates. -/
inductive Strategy where
  /-- Adjacent pairs seen more than `threshold` times, the best `limit` of them. -/
  | pairs (threshold limit : Setting Limit)
  /-- Runs of tokens, alternations from so many tokens on, and recurring holes. -/
  | stretches (minAlternation : Int)
  /-- The same texts every time. -/
  | fixed (texts : List String)
deriving Repr, Inhabited

namespace Proposal

/-- A whole run of a pattern, which is not preceded by the pattern. -/
def repetitionText (identity : String) : String :=
  "<" ++ identity ++ "! " ++ identity ++ "+"

/-- A pair of patterns, and a whole run of such pairs that ends with the first pattern. -/
def pairTexts (first second : String) : List String :=
  let pair := "( " ++ first ++ " " ++ second ++ " )"
  [first ++ " " ++ second, "<" ++ pair ++ "! " ++ pair ++ "+ " ++ first]

/-- The identities of the literals of characters, if all of them have one. -/
def literalIdentities (registry : Registry) : List Char → Except Fault (Option (List String))
  | [] => .ok (some [])
  | c :: rest =>
    match (registry.literalFor? (String.ofList [c])).bind registry.pattern? with
    | none => .ok none
    | some literal => do
      let identity ← literal.identity
      match ← literalIdentities registry rest with
      | none => return none
      | some others => return some (identity :: others)

/-- A pattern text that matches a text character by character, if all of them have literals. -/
def literalSequence? (registry : Registry) (text : String) : Except Fault (Option String) := do
  let identities ← literalIdentities registry text.toList
  return identities.map fun parts => " ".intercalate parts

/-- The first of the items with the greatest measure. -/
def firstGreatest? {α : Type} (measure : α → Int) : List α → Option α
  | [] => none
  | first :: rest =>
    some (rest.foldl (fun best item => if measure best < measure item then item else best) first)

/-- The number of characters in stretches. -/
def coverage (stretches : List Stretch) : Int :=
  stretches.foldl (fun total stretch => total + stretch.length) 0

/-- No pattern equivalent to a text is registered. A text that is refused counts as new, so that
the refusal is reported when it is registered. -/
def isNew (text : String) : Registry.Action Bool :=
  ExceptT.mk do
    match ← (Registry.existsEquivalent text).run with
    | .ok found => return .ok (!found)
    | .error (.pattern _) => return .ok true
    | .error fault => return .error fault

/-! ## Pairs -/

/-- The best pairs that have not been retired. -/
def freshPairs (survey : Survey) (threshold limit : Setting Limit) :
    Except Fault (List (PairKey × Int)) := do
  let best ← survey.bestPairs threshold limit
  return best.filter fun entry => !survey.retired.contains entry.1

/-- The proposals for a pair whose patterns are still registered. -/
def ofPair (registry : Registry) (key : PairKey) (count : Int) : Except Fault (List Proposal) := do
  match key.mapM registry.byId? with
  | none => return []
  | some patterns =>
    let identities ← patterns.mapM Pattern.identity
    let reason := " ".intercalate identities ++ " seen " ++ toString count ++ " times"
    let texts := match identities with
      | [first] => [repetitionText first]
      | first :: second :: _ => pairTexts first second
      | [] => []
    return texts.map fun text => { text, strategy := "pairs", reason }

/-- The proposals for pairs, each of which is retired before its patterns are looked up. -/
def ofFresh (registry : Registry) : List (PairKey × Int) → Survey.Action (List Proposal)
  | [] => return []
  | (key, count) :: rest => do
    modify fun survey => survey.retire key
    let proposals ← ofPair registry key count
    return proposals ++ (← ofFresh registry rest)

/-- The proposals for the best pairs not yet retired, which are retired by that. If an identity
cannot be written, the pairs up to that one are retired and nothing is proposed. -/
def ofPairs (registry : Registry) (threshold limit : Setting Limit) :
    Survey.Action (List Proposal) := do
  let fresh ← freshPairs (← getThe Survey) threshold limit
  ofFresh registry fresh

/-! ## Stretches and holes -/

/-- A proposal of the strategy on stretches. -/
def ofStretch (text reason : String) : Proposal :=
  { text, strategy := "stretches", reason }

/-- The identity of the pattern of an id that has to be there. -/
def identityOf (id : Int) : Registry.Action String := do
  let pattern ← (← getThe Registry).get id
  pattern.identity

/-- The items for which a check holds, tried in order. -/
def keepWhere {α : Type} (check : α → Registry.Action Bool) :
    List α → Registry.Action (List α)
  | [] => return []
  | item :: rest => do
    let kept ← check item
    let others ← keepWhere check rest
    return if kept then item :: others else others

/-- The proposal for the new repetition that covers most. -/
def ofRepetitions (chart : Chart) : Registry.Action (List Proposal) := do
  let candidates ← chart.repetitions.toList.mapM fun entry => do
    let text := repetitionText (← identityOf entry.1)
    let fresh ← isNew text
    return if fresh then some (text, entry.2) else none
  match firstGreatest? (fun candidate => coverage candidate.2) (candidates.filterMap id) with
  | none => return []
  | some (text, stretches) =>
    let reason := toString stretches.length ++ " runs covering " ++
      toString (coverage stretches) ++ " characters"
    return [ofStretch text reason]

/-- The texts for the alternations of a pair, led by the first pattern of the earliest one: one for
runs in which the patterns come equally often, one for runs that end as they begin. -/
def alternationTexts (first second : String) (stretches : List Stretch) : List String :=
  (if stretches.any fun stretch => stretch.count % 2 = 0 then
    ["( " ++ first ++ " " ++ second ++ " )+"] else []) ++
  (if stretches.any fun stretch => stretch.count % 2 = 1 then
    [first ++ " ( " ++ second ++ " " ++ first ++ " )*"] else [])

/-- The ids of the two tokens at the start of the earliest stretch. -/
def leaders : List Stretch → Option (Int × Int)
  | ⟨first :: second :: _⟩ :: _ => some (first.id, second.id)
  | _ => none

/-- The new texts for the alternations of a pair. -/
def newAlternations (stretches : List Stretch) : Registry.Action (List String) :=
  match leaders stretches with
  | none => return []
  | some (first, second) => do
    let firstIdentity ← identityOf first
    let secondIdentity ← identityOf second
    keepWhere isNew (alternationTexts firstIdentity secondIdentity stretches)

/-- The proposals for the pair whose alternations have new texts and cover most. -/
def ofAlternations (chart : Chart) (minAlternation : Int) : Registry.Action (List Proposal) := do
  let candidates ← (chart.alternations minAlternation).toList.mapM fun entry => do
    let texts ← newAlternations entry.2
    return (texts, entry.2)
  let usable := candidates.filter fun candidate => !candidate.1.isEmpty
  match firstGreatest? (fun candidate => coverage candidate.2) usable with
  | none => return []
  | some (texts, stretches) =>
    let reason := "alternation covering " ++ toString (coverage stretches) ++ " characters"
    return texts.map fun text => ofStretch text reason

/-- The proposal for the hole text that occurs most often. -/
def ofHoles (chart : Chart) : Registry.Action (List Proposal) := do
  match firstGreatest? (fun group => group.2.length) (duplicateHoles chart.holes) with
  | none => return []
  | some (hole, holes) =>
    match ← literalSequence? (← getThe Registry) hole with
    | none => return []
    | some text =>
      let fresh ← isNew text
      let reason := "hole " ++ Text.shown hole ++ " seen " ++ toString holes.length ++ " times"
      return if fresh then [ofStretch text reason] else []

/-- The proposals for the stretches and holes of a chart. -/
def ofChart (minAlternation : Int) (chart : Chart) : Registry.Action (List Proposal) := do
  let repetitions ← ofRepetitions chart
  let alternations ← ofAlternations chart minAlternation
  let holes ← ofHoles chart
  return repetitions ++ alternations ++ holes

end Proposal

namespace Strategy

/-- The name of a strategy. -/
def name : Strategy → String
  | pairs _ _ => "pairs"
  | stretches _ => "stretches"
  | fixed _ => "fixed"

/-- The proposals of a strategy. -/
def propose (strategy : Strategy) (survey : Survey) (charts : List Chart) :
    Registry.Action (List Proposal) :=
  match strategy with
  | pairs threshold limit => do
    ((Proposal.ofPairs (← getThe Registry) threshold limit).run survey).1
  | stretches minAlternation => do
    let proposals ← charts.mapM (Proposal.ofChart minAlternation)
    return proposals.flatten
  | fixed texts => return texts.map fun text => { text, strategy := "fixed", reason := "fixed" }

/-- The survey when a strategy has been asked, whether it has failed or not: the pairs that it has
used are retired. -/
def surveyAfter (strategy : Strategy) (registry : Registry) (survey : Survey) : Survey :=
  match strategy with
  | pairs threshold limit => ((Proposal.ofPairs registry threshold limit).run survey).2
  | stretches _ | fixed _ => survey

end Strategy

end Motif
