import Motif.Fault
import Motif.Lexeme.Basic
import Motif.Text.Blank
import Motif.Text.Digit
import Motif.Text.Word

/-!
# Reading lexemes

The first character of a lexeme decides its class, and each class has a function for how far a
lexeme of it reaches. Blanks between lexemes are skipped; any other character that starts no
lexeme is a fault.
-/

namespace Motif.Lexeme

open Motif.Text (isBlank isDigit isWordChar)

/-- The number of characters at the front that satisfy a predicate. -/
def spanLength (accepts : Char → Bool) (cs : List Char) : Nat :=
  (cs.takeWhile accepts).length

/-- The number of characters up to and including `close`, if nothing but blanks stands before
it. -/
def closedLength? (close : Char) (cs : List Char) : Option Nat :=
  let blanks := spanLength isBlank cs
  if (cs.drop blanks).head? = some close then some (blanks + 1) else none

/-- The number of characters in a run of digits with blanks before it. -/
def numberLength? (cs : List Char) : Option Nat :=
  let blanks := spanLength isBlank cs
  let digits := spanLength isDigit (cs.drop blanks)
  if digits = 0 then none else some (blanks + digits)

/-- How far the upper bound of a range reaches: a dash and a number, a plus, or nothing. -/
def boundLength? (cs : List Char) : Option Nat :=
  let blanks := spanLength isBlank cs
  match cs.drop blanks with
  | '-' :: rest => (numberLength? rest).map (blanks + 1 + ·)
  | '+' :: _ => some (blanks + 1)
  | _ => some 0

/-- How far a range reaches after its opening brace. -/
def rangeLength? (cs : List Char) : Option Nat := do
  let low ← numberLength? cs
  let high ← boundLength? (cs.drop low)
  let close ← closedLength? '}' (cs.drop (low + high))
  return low + high + close

/-- How far an id reaches after its opening bracket; it has at most nine digits. -/
def idLength? (cs : List Char) : Option Nat := do
  let number ← numberLength? cs
  let digits := number - spanLength isBlank cs
  if digits ≤ 9 then
    let close ← closedLength? ']' (cs.drop number)
    return number + close
  else
    none

/-- How far a quoted name reaches after its opening quote, `passed` characters of it being read
already. Two quotes together are part of the name; if the closing quote is missing, the first of
the last such two closes it, which `fallback` remembers. The name is not empty. -/
def quotedLength? (passed : Nat) (fallback : Option Nat) : List Char → Option Nat
  | [] => fallback
  | '\'' :: '\'' :: rest =>
    quotedLength? (passed + 2) (if passed = 0 then fallback else some (passed + 1)) rest
  | c :: rest =>
    if c = '\'' then (if passed = 0 then fallback else some (passed + 1))
    else quotedLength? (passed + 1) fallback rest

/-- The lexeme of a single character. -/
def mark? : Char → Option Symbol
  | '(' => some .opening
  | ')' => some .closing
  | '|' => some .bar
  | '<' => some (.look .behind)
  | '>' => some (.look .ahead)
  | '^' => some (.look .notBehind)
  | '!' => some (.quantity .never)
  | '?' => some (.quantity .optional)
  | '*' => some (.quantity .many)
  | '+' => some (.quantity .some)
  | _ => none

/-- The lexeme that starts with `c` before `rest`, and how many characters of `rest` it takes. -/
def symbolAt? (c : Char) (rest : List Char) : Option (Symbol × Nat) :=
  let taken (length : Nat) : String := String.ofList (c :: rest.take length)
  if c = '{' then (rangeLength? rest).map fun length => (.range (taken length), length)
  else if c = '[' then (idLength? rest).map fun length => (.id (taken length), length)
  else if c = '\'' then
    (quotedLength? 0 none rest).map fun length => (.quoted (taken length), length)
  else if c.isAlpha then
    let length := spanLength isWordChar rest
    some (.name (taken length), length)
  else (mark? c).map fun symbol => (symbol, 0)

/-- The lexemes of the rest of a text, from `position` on. The next `skip` characters belong to a
lexeme that has been read. -/
def readFrom (name : Option String) (position skip : Nat) :
    List Char → Except PatternFault (List Lexeme)
  | [] => .ok []
  | c :: rest =>
    match skip with
    | skip + 1 => readFrom name (position + 1) skip rest
    | 0 =>
      if isBlank c then readFrom name (position + 1) 0 rest
      else
        match symbolAt? c rest with
        | some (symbol, length) => do
          let lexemes ← readFrom name (position + 1) length rest
          return ⟨symbol, position⟩ :: lexemes
        | none => .error {
            cause := .unreadable (String.ofList ((c :: rest).take 10))
            position := some position
            token := some (String.ofList [c])
            name }

/-- The lexemes of a pattern text; a fault carries the name of the pattern. -/
def read (text : String) (name : Option String := none) : Except PatternFault (List Lexeme) :=
  readFrom name 0 0 text.toList

end Motif.Lexeme
