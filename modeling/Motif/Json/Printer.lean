import Motif.Double.Shortest
import Motif.Json.Basic
import Motif.Text.Shown

/-!
# Writing JSON

JSON is written with two spaces of indentation for each level, the members of an object in the
order of their keys, and every character outside printable ASCII escaped.
-/

namespace Motif.Json

/-- An escaped code unit. -/
def unitEscape (unit : Nat) : String :=
  "\\u" ++ Text.hexadecimal 4 unit

/-- One character inside a string. -/
def escapedChar (c : Char) : String :=
  if c = '"' then "\\\""
  else if c = '\\' then "\\\\"
  else if c = '\n' then "\\n"
  else if c = '\r' then "\\r"
  else if c = '\t' then "\\t"
  else if c = '\x08' then "\\b"
  else if c = '\x0c' then "\\f"
  else if 32 ≤ c.toNat && c.toNat < 127 then String.ofList [c]
  else if c.toNat < 0x10000 then unitEscape c.toNat
  else
    let offset := c.toNat - 0x10000
    unitEscape (0xD800 + offset / 0x400) ++ unitEscape (0xDC00 + offset % 0x400)

/-- A string between its quotes. -/
def quoted (text : String) : String :=
  "\"" ++ String.join (text.toList.map escapedChar) ++ "\""

/-- The members in the order of their keys. -/
def sortedMembers {α : Type} (members : List (String × α)) : List (String × α) :=
  members.mergeSort fun a b => a.1 ≤ b.1

/-- Parts between two brackets, each on a line of its own; brackets without parts stand
together. -/
def block (level : Nat) (opening closing : String) (parts : List String) : String :=
  if parts.isEmpty then opening ++ closing
  else
    let newline (level : Nat) := "\n" ++ String.ofList (List.replicate (2 * level) ' ')
    opening ++ newline (level + 1) ++ ("," ++ newline (level + 1)).intercalate parts ++
      newline level ++ closing

mutual

/-- The text of a value that stands at a level of indentation. -/
def render (level : Nat) : Json → String
  | null => "null"
  | bool value => if value then "true" else "false"
  | int value => toString value
  | real value => value.text "NaN" "Infinity"
  | string text => quoted text
  | array items => block level "[" "]" (renderItems (level + 1) items)
  | object members =>
    block level "\x7b" "\x7d"
      ((sortedMembers (renderMembers (level + 1) members)).map fun member =>
        quoted member.1 ++ ": " ++ member.2)

/-- The texts of the items of an array. -/
def renderItems (level : Nat) : List Json → List String
  | [] => []
  | item :: rest => render level item :: renderItems level rest

/-- The keys of an object with the texts of their values. -/
def renderMembers (level : Nat) : List (String × Json) → List (String × String)
  | [] => []
  | (key, value) :: rest => (key, render level value) :: renderMembers level rest

end

/-- The text of a value. -/
def pretty (json : Json) : String :=
  render 0 json

end Motif.Json
