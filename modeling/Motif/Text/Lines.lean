import Motif.Text.Blank

/-!
# Lines and cuts

A text is cut into lines at every kind of line end, and into fields at a separator.
-/

namespace Motif.Text

/-- A character that ends a line. -/
def isLineEnd (c : Char) : Bool :=
  let code := c.toNat
  (10 ≤ code && code ≤ 13) || (28 ≤ code && code ≤ 30) || code = 0x85 || code = 0x2028 ||
    code = 0x2029

/-- The lines of a text, `line` holding what is read of the current one, last character first. A
carriage return and the line feed after it end one line, and no line follows the last end. -/
def linesFrom (line : List Char) : List Char → List (List Char)
  | [] => if line.isEmpty then [] else [line.reverse]
  | '\r' :: '\n' :: rest => line.reverse :: linesFrom [] rest
  | c :: rest =>
    if isLineEnd c then line.reverse :: linesFrom [] rest else linesFrom (c :: line) rest

/-- The lines of a text without their ends. -/
def lines (text : String) : List String :=
  (linesFrom [] text.toList).map String.ofList

/-- The parts of a text before and after the first `separator`. -/
def cutAt? (separator : List Char) : List Char → Option (List Char × List Char)
  | [] => if separator.isEmpty then some ([], []) else none
  | c :: rest =>
    if separator.isPrefixOf (c :: rest) then some ([], (c :: rest).drop separator.length)
    else (cutAt? separator rest).map fun parts => (c :: parts.1, parts.2)

/-- The fields between separators, cut from the left at most `cuts` times. -/
def cutFields (separator : List Char) : Nat → List Char → List (List Char)
  | 0, cs => [cs]
  | cuts + 1, cs =>
    match cutAt? separator cs with
    | none => [cs]
    | some (field, rest) => field :: cutFields separator cuts rest

/-- Every line end written as a line feed: a carriage return counts as one, also together with
the line feed after it. -/
def unifyLineEnds : List Char → List Char
  | [] => []
  | '\r' :: '\n' :: rest => '\n' :: unifyLineEnds rest
  | '\r' :: rest => '\n' :: unifyLineEnds rest
  | c :: rest => c :: unifyLineEnds rest

end Motif.Text
