import Motif.Registry.Compile
import Motif.Registry.Description
import Motif.Text.Integer
import Motif.Text.Lines

/-!
# Pattern tables

A registry is saved as a table with a header and a row for each pattern: id, name, kind and
description. Nameless patterns are written as ids, so a table read again has the same trees.
-/

namespace Motif.Registry.Table

/-- The first line of every table. -/
def header : String := "Id | Name | Type | Pattern"

/-- What stands between the fields of a row. -/
def separator : List Char := " | ".toList

/-- The row of a pattern. -/
def row (registry : Registry) (pattern : Pattern) : Except Fault String := do
  let name ← match pattern.name with
    | some _ => pattern.identity
    | none => pure ""
  let description ← registry.describe pattern true
  let id ← Pattern.writeId pattern.id
  return " | ".intercalate [id, name, pattern.kind.label, description]

/-- The table of a registry, a row for each pattern in the order of registration. -/
def write (registry : Registry) : Except Fault String := do
  let rows ← registry.patterns.mapM (row registry)
  return "\n".intercalate (header :: rows) ++ "\n"

/-- Registers the pattern of a row, whose number in the table is given. -/
def readRow (number : Nat) (line : String) : Action Unit := do
  match Text.cutFields separator 3 line.toList with
  | [rawId, rawName, rawKind, description] => do
    let id ← Quantity.readBound (Text.trim rawId)
    let unquoted := Text.unquote (String.ofList (Text.trim rawName))
    let name := if unquoted.isEmpty then none else some unquoted
    let kind ← match Kind.ofName? (String.ofList rawKind) with
      | some kind => pure kind
      | none => throw (.unknownKind (String.ofList rawKind))
    let text := String.ofList description
    if kind = .literal then
      let _ ← addLiteral (Text.unquote text) name id kind
    else
      let _ ← register name kind text id
  | _ => throw (.tableRow number line)

/-- Registers the patterns of rows in order, the first of which has a number. -/
def readRows : Nat → List String → Action Unit
  | _, [] => return
  | number, line :: rest => do
    readRow number line
    readRows (number + 1) rest

/-- Registers the patterns of a table. Blank lines do not count. -/
def read (text : String) : Action Unit :=
  match (Text.lines text).filter fun line => !(line.toList.all Text.isBlank) with
  | [] => return
  | first :: rest =>
    if Text.trim first.toList = header.toList then readRows 2 rest
    else throw (.tableHeader header)

/-- The id at the start of a row. -/
def rowId (line : String) : Except Fault Int :=
  match Text.cutAt? separator line.toList with
  | some (id, _) => Quantity.readBound id
  | none => Quantity.readBound line.toList

/-- The lines of a table, without its header and what follows the last line feed, that start with
an id from `first` on. -/
def rowsFrom (table : String) (first : Int) : Except Fault (List String) := do
  let rows := ((Text.cutFields ['\n'] table.length table.toList).drop 1).dropLast
  (rows.map String.ofList).filterM fun line => return first ≤ (← rowId line)

end Motif.Registry.Table
