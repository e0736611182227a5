import Motif.Text.Blank
import Motif.Text.Digit

/-!
# Written integers

An integer is read from a text of decimal digits of any script, with an optional sign, spaces and
line ends around it, and single underscores between digits. Counts in reports are written in
groups of three digits.
-/

namespace Motif.Text

/-- Why a text is no integer. -/
inductive IntegerFault where
  | malformed
  /-- It has this number of digits, which is too great. -/
  | tooLong (digits : Nat)
deriving DecidableEq, Repr

/-- The greatest number of digits in which an integer may be written, zeros at its front counted. -/
def mostDigits : Nat := 4300

/-- The values of the digits at the front of a text, and the rest; an underscore may stand between
two digits, and nowhere else. -/
def spanDigitValues : List Char → Option (List Nat × List Char)
  | [] => some ([], [])
  | '_' :: c :: rest => do
    let value ← digitValue? c
    let (values, rest) ← spanDigitValues rest
    return (value :: values, rest)
  | c :: rest =>
    match digitValue? c with
    | some value => do
      let (values, rest) ← spanDigitValues rest
      return (value :: values, rest)
    | none => if c = '_' then none else some ([], c :: rest)

/-- The number with these digits. -/
def ofDigitValues (values : List Nat) : Nat :=
  values.foldl (fun number value => number * 10 + value) 0

/-- Reads a number without sign: it starts with a digit. Too many digits are a fault whatever
follows them. -/
def readNat (cs : List Char) : Except IntegerFault Nat :=
  if cs.head? = some '_' then .error .malformed
  else
    match spanDigitValues cs with
    | none => .error .malformed
    | some (values, rest) =>
      if mostDigits < values.length then .error (.tooLong values.length)
      else if values.isEmpty || !rest.isEmpty then .error .malformed
      else .ok (ofDigitValues values)

/-- The blanks that may stand around an integer: all but the four information separators. -/
def isMargin (c : Char) : Bool :=
  isBlank c && !(28 ≤ c.toNat && c.toNat ≤ 31)

/-- Reads an integer in any of its written forms. -/
def readInt (cs : List Char) : Except IntegerFault Int :=
  match trimWhere isMargin cs with
  | '-' :: digits => do return -((← readNat digits) : Int)
  | '+' :: digits => do return (← readNat digits)
  | digits => do return (← readNat digits)

/-- Commas between groups of three digits, counted from the right end; the digits stand with the
last one first. -/
def groupDigits : List Char → List Char
  | a :: b :: c :: rest =>
    if rest.isEmpty then [a, b, c] else a :: b :: c :: ',' :: groupDigits rest
  | digits => digits

/-- An integer with commas between groups of three digits. -/
def grouped (value : Int) : String :=
  let digits := String.ofList (groupDigits (toString value.natAbs).toList.reverse).reverse
  if value < 0 then "-" ++ digits else digits

end Motif.Text
