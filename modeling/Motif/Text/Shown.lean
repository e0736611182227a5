import Motif.Text.Printable

/-!
# Shown text

A text is shown inside quotes with every unprintable character escaped, so that a message stays
on one line and shows exactly which characters it speaks of.
-/

namespace Motif.Text

/-- The hexadecimal digits of `n` in lower case, with leading zeros up to `width`. -/
def hexadecimal (width n : Nat) : String :=
  let digits := Nat.toDigits 16 n
  String.ofList (List.replicate (width - digits.length) '0' ++ digits)

/-- The quote around a shown text: the double one only if the text holds a single one and no
double one. -/
def shownQuote (cs : List Char) : Char :=
  if cs.contains '\'' && !cs.contains '"' then '"' else '\''

/-- One character of a shown text between two of `quote`. -/
def shownChar (quote c : Char) : String :=
  if c = quote || c = '\\' then String.ofList ['\\', c]
  else if c = '\n' then "\\n"
  else if c = '\t' then "\\t"
  else if c = '\r' then "\\r"
  else if isPrintable c then String.ofList [c]
  else if c.toNat < 0x100 then "\\x" ++ hexadecimal 2 c.toNat
  else if c.toNat < 0x10000 then "\\u" ++ hexadecimal 4 c.toNat
  else "\\U" ++ hexadecimal 8 c.toNat

/-- The text between quotes, unprintable characters escaped. -/
def shown (text : String) : String :=
  let cs := text.toList
  let quote := shownQuote cs
  let border := String.ofList [quote]
  border ++ String.join (cs.map (shownChar quote)) ++ border

end Motif.Text
