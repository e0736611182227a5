import Motif.ArrivalMap
import Motif.Chart.Basic

/-!
# Runs of tokens

A stretch is a run of tokens, each of which starts where the one before it ends. Charts are
searched for repetitions, in which one pattern follows itself, and for alternations, in which two
patterns take turns.
-/

namespace Motif

/-- A run of adjacent tokens. -/
structure Stretch where
  tokens : List Token
deriving Inhabited

namespace Stretch

/-- The start of the first token. -/
def start (stretch : Stretch) : Int :=
  match stretch.tokens with
  | [] => 0
  | first :: _ => first.start

/-- The distance from the start of the first token to the end of the last one. -/
def length (stretch : Stretch) : Int :=
  match stretch.tokens.getLast? with
  | none => 0
  | some last => last.stop - stretch.start

/-- The position after the last token. -/
def stop (stretch : Stretch) : Int :=
  stretch.start + stretch.length

/-- The texts of the tokens together. -/
def text (stretch : Stretch) : String :=
  String.join (stretch.tokens.map Token.text)

/-- The number of tokens. -/
def count (stretch : Stretch) : Nat :=
  stretch.tokens.length

end Stretch

namespace Chart

/-- The tokens in the slot of an index, which may count from the end. -/
def startingAt (chart : Chart) (index : Int) : List Token :=
  match slot? chart.heads.size index with
  | some slot => chart.heads.getD slot []
  | none => []

/-- The tokens of two patterns in turn that follow one another from a position on, those of `next`
first, over at most so many tokens. -/
def follow (chart : Chart) (next other : Int) : Nat → Int → List Token
  | 0, _ => []
  | bound + 1, position =>
    match ofPattern? next (chart.startingAt position) with
    | none => []
    | some token => token :: follow chart other next bound token.stop

/-- The tokens in turn from a position up to the end of the text. -/
def followFrom (chart : Chart) (next other position : Int) : List Token :=
  chart.follow next other (chart.size - position).toNat position

/-- A token that starts before the end of a stretch is part of it already. -/
def isInside (first : Token) (stretches : List Stretch) : Bool :=
  stretches.any fun stretch => first.start < stretch.stop

/-- Stretches by key. -/
abbrev StretchMap (κ : Type) (cmp : κ → κ → Ordering) := ArrivalMap κ (List Stretch) cmp

/-- The repetition that a token begins, added unless it is a single token or part of one found
before. -/
def addRepetition (chart : Chart) (found : StretchMap Int compare) (first : Token) :
    StretchMap Int compare :=
  if isInside first (found.getD first.id []) then found
  else
    match chart.followFrom first.id first.id first.stop with
    | [] => found
    | rest => found.update first.id [] (· ++ [⟨first :: rest⟩])

/-- The longest runs of each pattern following itself, by pattern. -/
def repetitions (chart : Chart) : StretchMap Int compare :=
  chart.tokens.foldl chart.addRepetition {}

/-- The alternation that two adjacent tokens begin, added unless it is too short or part of one
found before. Both orders of the patterns share a key. -/
def addAlternation (chart : Chart) (minTokens : Int) (first : Token)
    (found : StretchMap Cell Cell.order) (second : Token) : StretchMap Cell Cell.order :=
  let key := (min first.id second.id, max first.id second.id)
  if isInside first (found.getD key []) then found
  else
    let rest := chart.followFrom first.id second.id second.stop
    let stretch : Stretch := ⟨first :: second :: rest⟩
    if minTokens ≤ stretch.count then found.update key [] (· ++ [stretch]) else found

/-- The alternations that a token begins, which must not be followed by one of its own pattern. -/
def addAlternations (chart : Chart) (minTokens : Int) (found : StretchMap Cell Cell.order)
    (first : Token) : StretchMap Cell Cell.order :=
  if chart.size ≤ first.stop then found
  else
    let seconds := chart.startingAt first.stop
    if (ofPattern? first.id seconds).isSome then found
    else seconds.foldl (chart.addAlternation minTokens first) found

/-- The longest runs in which two patterns take turns, by the ids of the two in ascending
order. -/
def alternations (chart : Chart) (minTokens : Int := 4) : StretchMap Cell Cell.order :=
  chart.tokens.foldl (chart.addAlternations minTokens) {}

end Chart

end Motif
