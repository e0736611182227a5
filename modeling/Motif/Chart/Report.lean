import Motif.Json.Basic
import Motif.Registry.Description
import Motif.Chart.Basic

/-!
# Chart reports

A chart is shown as a listing of the tokens at each position, token by token, or as a JSON value
with the tree of each match.
-/

namespace Motif.Chart

/-- The pattern of a token is at least of a kind. -/
def isAtLeast (registry : Registry) (kind : Kind) (token : Token) : Except Fault Bool := do
  return kind ≤ (← registry.get token.id).kind

/-- The line about a token; a nameless pattern is described behind it. -/
def tokenLine (registry : Registry) (token : Token) : Except Fault String := do
  let pattern ← registry.get token.id
  let line := "  " ++ (← pattern.identity) ++ ": " ++ token.text
  if pattern.name.isNone then return line ++ "  | " ++ (← registry.describe pattern) ++ "\n"
  else return line ++ "\n"

/-- The lines about the tokens of a slot that are at least of a kind. -/
def slotLines (registry : Registry) (kind : Kind) : List Token → Except Fault (List String)
  | [] => return []
  | token :: rest => do
    if ← isAtLeast registry kind token then
      let line ← tokenLine registry token
      return line :: (← slotLines registry kind rest)
    else slotLines registry kind rest

/-- The block about a position with its character, if there is something to list there. -/
def positionBlock (registry : Registry) (kind : Kind) (includeEmpty : Bool) (position : Nat)
    (c : Char) (slot : List Token) : Except Fault (Option String) := do
  let lines ← slotLines registry kind slot
  if lines.isEmpty && !includeEmpty then return none
  let rule := "----------"
  let heading := rule ++ "  " ++ toString position ++ "  -  " ++ String.ofList [c] ++ "  " ++ rule
  return some (heading ++ "\n" ++ String.join lines)

/-- The blocks about the positions from one on. -/
def blocksFrom (registry : Registry) (kind : Kind) (includeEmpty : Bool) (position : Nat) :
    List (Char × List Token) → Except Fault (List String)
  | [] => return []
  | (c, slot) :: rest => do
    let block ← positionBlock registry kind includeEmpty position c slot
    return block.toList ++ (← blocksFrom registry kind includeEmpty (position + 1) rest)

/-- The listing of the tokens of at least a kind, position by position. -/
def listing (chart : Chart) (registry : Registry) (kind : Kind := .basics)
    (includeEmpty : Bool := false) : Except Fault String := do
  let blocks ← blocksFrom registry kind includeEmpty 0
    (chart.text.toList.zip chart.heads.toList)
  return if blocks.isEmpty then "<empty>" else String.join blocks

/-- A token on one line, with its span. -/
def formatToken (registry : Registry) (token : Token) : Except Fault String := do
  let pattern ← registry.get token.id
  let display ← registry.display pattern
  return display ++ " >> (" ++ toString token.start ++ " - " ++ toString token.stop ++ ") '" ++
    token.text ++ "'"

/-- One of the tokens is derived or above; the first such one decides. -/
def anyDerived (registry : Registry) : List Token → Except Fault Bool
  | [] => return false
  | token :: rest => do
    if ← isAtLeast registry .derived token then return true else anyDerived registry rest

mutual

/-- The match tree of a token. Its children appear only if one of them is derived or above. -/
def tokenJson (registry : Registry) : Token → Except Fault Json
  | ⟨id, start, length, text, children⟩ => do
    let pattern ← registry.get id
    let display ← registry.display pattern
    let members := [
      ("pattern", Json.string display), ("start", .int start), ("length", .int length),
      ("text", .string text)]
    if ← anyDerived registry children then
      return .object (members ++ [("children", .array (← tokensJson registry children))])
    else return .object members

/-- The match trees of tokens. -/
def tokensJson (registry : Registry) : List Token → Except Fault (List Json)
  | [] => return []
  | token :: rest => do
    let first ← tokenJson registry token
    return first :: (← tokensJson registry rest)

end

/-- A hole as a JSON value. -/
def holeJson (hole : Hole) : Json :=
  .object [("start", .int hole.start), ("length", .int hole.length), ("text", .string hole.text)]

/-- The tokens of at least a kind. -/
def tokensOf (chart : Chart) (registry : Registry) (kind : Kind) : Except Fault (List Token) :=
  chart.tokens.filterM (isAtLeast registry kind)

/-- The chart as a JSON value: its text, the tokens of at least a kind, and the holes. -/
def toJson (chart : Chart) (registry : Registry) (kind : Kind := .derived) :
    Except Fault Json := do
  let tokens ← chart.tokensOf registry kind
  return .object [
    ("text", .string chart.textString),
    ("tokens", .array (← tokensJson registry tokens)),
    ("holes", .array (chart.holes.map holeJson))]

end Motif.Chart
