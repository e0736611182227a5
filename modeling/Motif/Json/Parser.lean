import Motif.Fault
import Motif.Json.Basic
import Motif.Text.Integer

/-!
# Reading JSON

A reader for JSON text. Each function takes the characters that are left and gives back those
that it leaves. Values are read with a bound on the steps, two for each character of the text, and
nested only down to a fixed depth.
-/

namespace Motif.Json

/-- The characters that may stand between lexemes. -/
def isSpace (c : Char) : Bool :=
  c = ' ' || c = '\t' || c = '\n' || c = '\r'

/-- The text after blanks. -/
def skipSpace (cs : List Char) : List Char :=
  cs.dropWhile isSpace

/-- The value of a hexadecimal digit. -/
def hexValue? (c : Char) : Option Nat :=
  if c.isDigit then some (c.toNat - 48)
  else if 'a' ≤ c && c ≤ 'f' then some (c.toNat - 87)
  else if 'A' ≤ c && c ≤ 'F' then some (c.toNat - 55)
  else none

/-- The number of four hexadecimal digits. -/
def hex4? (a b c d : Char) : Option Nat := do
  let high := (← hexValue? a) * 16 + (← hexValue? b)
  let low := (← hexValue? c) * 16 + (← hexValue? d)
  return high * 256 + low

/-- The character that stands for a half of a pair whose other half is missing. -/
def replacement : Char := Char.ofNat 0xFFFD

/-- A read text, last character first, after a half of a pair that has no other half. -/
def flush (high : Option Nat) (acc : List Char) : List Char :=
  if high.isSome then replacement :: acc else acc

/-- A read text, last character first, after an escaped code unit; the first half of a pair is
kept until the second one comes. -/
def pushUnit (high : Option Nat) (acc : List Char) (unit : Nat) : Option Nat × List Char :=
  if 0xD800 ≤ unit && unit < 0xDC00 then (some unit, flush high acc)
  else if 0xDC00 ≤ unit && unit < 0xE000 then
    match high with
    | some first =>
      (none, Char.ofNat (0x10000 + (first - 0xD800) * 0x400 + (unit - 0xDC00)) :: acc)
    | none => (none, replacement :: acc)
  else (none, Char.ofNat unit :: flush high acc)

/-- The character that a short escape stands for. -/
def shortEscape? : Char → Option Char
  | '"' => some '"'
  | '\\' => some '\\'
  | '/' => some '/'
  | 'b' => some '\x08'
  | 'f' => some '\x0c'
  | 'n' => some '\n'
  | 'r' => some '\r'
  | 't' => some '\t'
  | _ => none

/-- Reads the rest of a string after its opening quote. -/
def readString (high : Option Nat) (acc : List Char) : List Char → Option (String × List Char)
  | [] => none
  | '"' :: rest => some (String.ofList (flush high acc).reverse, rest)
  | '\\' :: 'u' :: a :: b :: c :: d :: rest =>
    match hex4? a b c d with
    | some unit =>
      let (high, acc) := pushUnit high acc unit
      readString high acc rest
    | none => none
  | '\\' :: c :: rest =>
    match shortEscape? c with
    | some plain => readString none (plain :: flush high acc) rest
    | none => none
  | c :: rest => if c.toNat < 32 then none else readString none (c :: flush high acc) rest

/-- The digits at the front of a text, and the rest. -/
def spanDigits (cs : List Char) : List Char × List Char :=
  (cs.takeWhile Char.isDigit, cs.dropWhile Char.isDigit)

/-- The value of decimal digits. -/
def natOf (digits : List Char) : Nat :=
  digits.foldl (fun value c => value * 10 + (c.toNat - 48)) 0

/-- The fraction at the front of a text, and the rest; empty if there is none. -/
def spanFraction (cs : List Char) : List Char × List Char :=
  match cs with
  | '.' :: rest =>
    let (digits, rest) := spanDigits rest
    if digits.isEmpty then ([], cs) else ('.' :: digits, rest)
  | _ => ([], cs)

/-- The exponent at the front of a text, and the rest; empty if there is none. -/
def spanExponent (cs : List Char) : List Char × List Char :=
  match cs with
  | mark :: rest =>
    if mark = 'e' || mark = 'E' then
      let (sign, rest) := match rest with
        | '+' :: rest => (['+'], rest)
        | '-' :: rest => (['-'], rest)
        | rest => ([], rest)
      let (digits, rest) := spanDigits rest
      if digits.isEmpty then ([], cs) else (mark :: sign ++ digits, rest)
    else ([], cs)
  | [] => ([], [])

/-- The whole part of a number: a zero, or digits that do not start with one. -/
def spanWhole (cs : List Char) : List Char × List Char :=
  match cs with
  | '0' :: rest => (['0'], rest)
  | cs => spanDigits cs

/-- The integer of digits, of which there must not be too many. -/
def integerOf (negative : Bool) (digits : List Char) : Except Fault Int :=
  if Text.mostDigits < digits.length then .error (.integerTooLong (some digits.length))
  else .ok (if negative then -(natOf digits : Int) else natOf digits)

/-- The value of an exponent with its mark; without one it is zero. -/
def exponentValue : List Char → Int
  | _ :: '-' :: digits => -(natOf digits : Int)
  | _ :: '+' :: digits => natOf digits
  | _ :: digits => natOf digits
  | [] => 0

/-- Reads a number. -/
def readNumber (cs : List Char) : Except Fault (Json × List Char) := do
  let (negative, cs) := match cs with
    | '-' :: rest => (true, rest)
    | cs => (false, cs)
  let (whole, rest) := spanWhole cs
  if whole.isEmpty then throw .malformedJson
  let (fraction, rest) := spanFraction rest
  let (exponent, rest) := spanExponent rest
  if fraction.isEmpty && exponent.isEmpty then
    return (int (← integerOf negative whole), rest)
  else
    let places := fraction.drop 1
    let scale := exponentValue exponent - places.length
    return (real (Double.ofDecimal negative (natOf (whole ++ places)) scale), rest)

/-- The rest of a text after a word at its front. -/
def afterWord? (word : String) (cs : List Char) : Option (List Char) :=
  if word.toList.isPrefixOf cs then some (cs.drop word.length) else none

/-- Reads a word that stands for a value. -/
def readWord (cs : List Char) : Option (Json × List Char) :=
  let word (text : String) (value : Json) := (afterWord? text cs).map fun rest => (value, rest)
  (word "null" null).or <| (word "true" (bool true)).or <| (word "false" (bool false)).or <|
    (word "NaN" (real .undefined)).or <| (word "Infinity" (real (.infinite false))).or <|
    word "-Infinity" (real (.infinite true))

/-- What has been read, or a fault if nothing could be read. -/
def orMalformed {α : Type} : Option α → Except Fault α
  | some result => .ok result
  | none => .error .malformedJson

/-- Refuses a container where no further one may be nested. -/
def nestable : Nat → Except Fault Nat
  | 0 => .error .tooDeep
  | room + 1 => .ok room

mutual

/-- Reads a value with so many containers nested. The bound is on the steps of reading. -/
def readValue : Nat → Nat → List Char → Except Fault (Json × List Char)
  | 0, _, _ => .error .malformedJson
  | bound + 1, room, cs =>
    match cs with
    | '"' :: rest => do
      let (text, rest) ← orMalformed (readString none [] rest)
      return (string text, rest)
    | '[' :: rest => do
      let room ← nestable room
      match skipSpace rest with
      | ']' :: rest => return (array [], rest)
      | rest => readItems bound room [] rest
    | '\x7b' :: rest => do
      let room ← nestable room
      match skipSpace rest with
      | '\x7d' :: rest => return (object [], rest)
      | rest => readMembers bound room [] rest
    | cs =>
      match readWord cs with
      | some result => .ok result
      | none => readNumber cs

/-- Reads the items of an array from the next one on; those read stand last first. -/
def readItems : Nat → Nat → List Json → List Char → Except Fault (Json × List Char)
  | 0, _, _, _ => .error .malformedJson
  | bound + 1, room, items, cs => do
    let (item, rest) ← readValue bound room (skipSpace cs)
    match skipSpace rest with
    | ',' :: rest => readItems bound room (item :: items) rest
    | ']' :: rest => return (array (item :: items).reverse, rest)
    | _ => throw .malformedJson

/-- Reads the members of an object from the next one on. -/
def readMembers : Nat → Nat → List (String × Json) → List Char → Except Fault (Json × List Char)
  | 0, _, _, _ => .error .malformedJson
  | bound + 1, room, members, cs => do
    let rest ← orMalformed (afterWord? "\"" (skipSpace cs))
    let (key, rest) ← orMalformed (readString none [] rest)
    let rest ← orMalformed (afterWord? ":" (skipSpace rest))
    let (value, rest) ← readValue bound room (skipSpace rest)
    let members := setMember key value members
    match skipSpace rest with
    | ',' :: rest => readMembers bound room members rest
    | '\x7d' :: rest => return (object members, rest)
    | _ => throw .malformedJson

end

/-- How many containers may be nested. -/
def mostNested : Nat := 985

/-- The value of a JSON text, which has nothing but blanks around it. -/
def parse (text : String) : Except Fault Json := do
  let cs := text.toList
  let (value, rest) ← readValue (2 * cs.length + 1) mostNested (skipSpace cs)
  if (skipSpace rest).isEmpty then return value else throw .malformedJson

end Motif.Json
