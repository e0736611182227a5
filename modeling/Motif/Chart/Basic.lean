import Motif.Fault
import Motif.Text.Slice
import Motif.Token
import Std.Data.TreeMap

/-!
# Charts

A chart holds the tokens found in one text, by the position at which they start and by the
position of their last character. It also remembers the outcome for every pattern and position
that has been tried, failures included, so that none is tried twice; which trials are under way;
and how far each pattern has been tried in order from the start.
-/

namespace Motif

/-- A position and the id of a pattern. -/
abbrev Cell := Int × Int

/-- The order of cells: by position, then by id. -/
abbrev Cell.order (a b : Cell) : Ordering :=
  lexOrd.compare a b

/-- What is known about the tokens of one text. -/
structure Chart where
  /-- The characters of the text. -/
  text : Array Char
  /-- The tokens that start at each position, in the order in which their ids first came. -/
  heads : Array (List Token)
  /-- The tokens whose last character is at each position. -/
  tails : Array (List Token)
  /-- The holes found last. -/
  holes : List Hole := []
  /-- The outcomes of all trials. -/
  memo : Std.TreeMap Cell (Option Token) Cell.order := {}
  /-- The trials that are under way. -/
  active : List Cell := []
  /-- For each pattern the first position at which it has not been tried in order. -/
  scanned : Std.TreeMap Int Int := {}
deriving Inhabited

namespace Chart

/-- An operation on a chart. What it has changed stays changed also if it fails. -/
abbrev Action (α : Type) := ExceptT Fault (StateM Chart) α

/-- The chart of a text in which nothing has been tried. -/
def ofText (text : String) : Chart :=
  let cs := text.toList.toArray
  let slots := Array.replicate cs.size []
  { text := cs, heads := slots, tails := slots }

/-- The number of characters of the text. -/
def size (chart : Chart) : Int :=
  chart.text.size

/-- The whole text. -/
def textString (chart : Chart) : String :=
  String.ofList chart.text.toList

/-- All tokens, by position and then in the order in which their ids first came. -/
def tokens (chart : Chart) : List Token :=
  chart.heads.toList.flatten

/-- The slot of an index into a chart of `size` slots; a negative index counts from the end. -/
def slot? (size : Nat) (index : Int) : Option Nat :=
  if 0 ≤ index then (if index < size then some index.toNat else none)
  else if 0 ≤ size + index then some (size + index).toNat
  else none

/-- The tokens of a slot with one more, which takes the place of a token of its pattern. -/
def put (token : Token) : List Token → List Token
  | [] => [token]
  | other :: rest => if other.id = token.id then token :: rest else other :: put token rest

/-- The token of a pattern in a slot. -/
def ofPattern? (id : Int) (slot : List Token) : Option Token :=
  slot.find? fun token => token.id = id

/-- The slot at a position inside the text, empty elsewhere. -/
def slotAt (slots : Array (List Token)) (position : Int) : List Token :=
  if 0 ≤ position then slots.getD position.toNat [] else []

/-- The token of a pattern that starts at a position. -/
def head? (chart : Chart) (position id : Int) : Option Token :=
  ofPattern? id (slotAt chart.heads position)

/-- The token of a pattern whose last character is at a position. -/
def tail? (chart : Chart) (position id : Int) : Option Token :=
  ofPattern? id (slotAt chart.tails position)

/-- The outcome of a trial, if there has been one. -/
def outcome? (chart : Chart) (position id : Int) : Option (Option Token) :=
  chart.memo[((position, id) : Cell)]?

/-- Enters a token of positive length at its start, at its end and among the outcomes. -/
def add (token : Token) : Action Unit := do
  let size := (← getThe Chart).text.size
  match slot? size token.start with
  | none => throw .outsideChart
  | some slot => modify fun chart => { chart with heads := chart.heads.modify slot (put token) }
  match slot? size token.last with
  | none => throw .outsideChart
  | some slot => modify fun chart => { chart with tails := chart.tails.modify slot (put token) }
  modify fun chart => { chart with memo := chart.memo.insert (token.start, token.id) token }

/-- Remembers the outcome of a trial. Only a token of positive length is entered into the
slots. -/
def remember (position id : Int) (outcome : Option Token) : Action Unit :=
  match outcome with
  | some token =>
    if 0 < token.length then add token
    else modify fun chart => { chart with memo := chart.memo.insert (position, id) outcome }
  | none => modify fun chart => { chart with memo := chart.memo.insert (position, id) none }

/-- Marks a trial as under way; the answer is no if it already is. -/
def enter (position id : Int) : Action Bool := do
  if (← getThe Chart).active.contains (position, id) then return false
  modify fun chart => { chart with active := (position, id) :: chart.active }
  return true

/-- Marks a trial as ended. -/
def leave (chart : Chart) (position id : Int) : Chart :=
  { chart with active := chart.active.erase (position, id) }

/-- The first position at which a pattern has not been tried in order. -/
def scannedUntil (chart : Chart) (id : Int) : Int :=
  chart.scanned.getD id 0

/-- Notes that a pattern has been tried at a position; only the next position in order counts. -/
def markScanned (chart : Chart) (id position : Int) : Chart :=
  if chart.scannedUntil id = position then
    { chart with scanned := chart.scanned.insert id (position + 1) }
  else chart

/-- The tokens that span the whole text. -/
def topTokens (chart : Chart) : List Token :=
  (slotAt chart.heads 0).filter fun token => token.length = chart.size

end Chart

end Motif
