import Motif.Chart.Matching
import Std.Data.TreeSet

/-!
# Holes

A hole is a longest stretch of text that no token of a sufficiently mature pattern covers. A
sweep from left to right keeps the tokens that are open at the current position.
-/

namespace Motif

/-- The token's pattern is registered and at least of a kind. -/
def Token.reaches (token : Token) (grammar : Grammar) (kind : Kind) : Bool :=
  match grammar.find? token.id with
  | some pattern => kind ≤ pattern.kind
  | none => false

namespace Chart

/-- The place of a token in its text, and whose it is. -/
def cellOf (token : Token) : Cell :=
  (token.start, token.id)

/-- For each position from the first of the given slots on, whether a token that counts is open
there: it starts no later and does not end before. -/
def sweep (counts : Token → Bool) (running : Std.TreeSet Cell Cell.order) :
    List (List Token × List Token) → List Bool
  | [] => []
  | (heads, tails) :: rest =>
    let started := (heads.filter counts).map cellOf
    let opened := started.foldl (fun cells cell => cells.insert cell) running
    let closed := tails.foldl (fun cells token => cells.erase (cellOf token)) opened
    (!opened.isEmpty) :: sweep counts closed rest

/-- The hole from a position up to another one. -/
def holeBetween (text : Array Char) (start stop : Nat) : Hole where
  start := start
  length := stop - start
  text := String.ofList (text.extract start stop).toList

/-- The longest runs of positions that are not covered, from a position on; a run may have begun
before. -/
def holesFrom (text : Array Char) (begun : Option Nat) (position : Nat) : List Bool → List Hole
  | [] => (begun.map fun start => holeBetween text start position).toList
  | true :: rest =>
    (begun.map fun start => holeBetween text start position).toList ++
      holesFrom text none (position + 1) rest
  | false :: rest => holesFrom text (some (begun.getD position)) (position + 1) rest

/-- The longest stretches that no token of at least the given kind covers. -/
def findHoles (chart : Chart) (grammar : Grammar) (kind : Kind := .derived) : List Hole :=
  let slots := chart.heads.toList.zip chart.tails.toList
  holesFrom chart.text none 0 (sweep (fun token => token.reaches grammar kind) {} slots)

end Chart

/-- The texts of holes longer than one character that occur more than once, in the order of their
first occurrence, each with its holes. -/
def duplicateHoles (holes : List Hole) : List (String × List Hole) :=
  let long := holes.filter fun hole => 1 < hole.length
  let texts := (long.map Hole.text).eraseDups
  (texts.map fun text => (text, long.filter fun hole => hole.text = text)).filter fun group =>
    1 < group.2.length

end Motif
