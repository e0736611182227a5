/-!
# Blank characters

The characters that count as white space: the ASCII controls that move the pen, the four
information separators, and the Unicode separators. `trim` drops them at both ends of a text.
-/

namespace Motif.Text

/-- A blank is a character of white space in the sense of Unicode, or an information separator. -/
def isBlank (c : Char) : Bool :=
  let code := c.toNat
  (9 ≤ code && code ≤ 13) || (28 ≤ code && code ≤ 32) || code = 0x85 || code = 0xA0 ||
    code = 0x1680 || (0x2000 ≤ code && code ≤ 0x200A) || code = 0x2028 || code = 0x2029 ||
    code = 0x202F || code = 0x205F || code = 0x3000

/-- The text without the characters of class `drop` at its two ends. -/
def trimWhere (drop : Char → Bool) (cs : List Char) : List Char :=
  (((cs.dropWhile drop).reverse).dropWhile drop).reverse

/-- The text without the blanks at its two ends. -/
def trim (cs : List Char) : List Char :=
  trimWhere isBlank cs

/-- Every blank of the ASCII range that core knows is one here. -/
theorem isBlank_of_isWhitespace {c : Char} (hc : c.isWhitespace = true) : isBlank c = true := by
  simp only [Char.isWhitespace, Bool.or_eq_true, decide_eq_true_eq] at hc
  rcases hc with ((hc | hc) | hc) | hc <;> subst hc <;> decide

end Motif.Text
