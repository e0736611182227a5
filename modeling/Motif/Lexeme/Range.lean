import Motif.Fault
import Motif.Text.Integer

/-!
# Ranges

A range quantifier is written in braces: `n` for exactly `n`, `n-m` for `n` up to `m`, and `n+`
for `n` or more.
-/

namespace Motif.Quantity

/-- Reads an integer; the text is to blame if it is none. -/
def readBound (cs : List Char) : Except Fault Int :=
  match Text.readInt cs with
  | .ok value => .ok value
  | .error .malformed => .error (.notInteger (String.ofList cs))
  | .error (.tooLong digits) => .error (.integerTooLong (some digits))

/-- Splits a text at its first dash. -/
def splitAtDash? (cs : List Char) : Option (List Char × List Char) :=
  if cs.contains '-' then
    some (cs.takeWhile (· ≠ '-'), (cs.dropWhile (· ≠ '-')).drop 1)
  else none

/-- The quantity that stands between the first and the last character of a text. Spaces and tabs
do not count. -/
def ofRange (text : String) : Except Fault Quantity := do
  let inner := (text.toList.drop 1).dropLast.filter fun c => c ≠ ' ' && c ≠ '\t'
  match splitAtDash? inner with
  | some (low, high) => do
    let least ← readBound low
    let most ← readBound high
    return ⟨least, most⟩
  | none =>
    if inner.getLast? = some '+' then do
      let least ← readBound inner.dropLast
      return ⟨least, unlimited⟩
    else do
      let count ← readBound inner
      return ⟨count, count⟩

end Motif.Quantity
