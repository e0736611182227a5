/-!
# Plain words

A plain word is a letter followed by letters, digits, dashes and underscores, all of them ASCII.
-/

namespace Motif.Text

/-- A character of a plain word after the first. -/
def isWordChar (c : Char) : Bool :=
  c.isAlphanum || c = '-' || c = '_'

/-- A letter, then letters, digits, dashes and underscores. -/
def isWord : List Char → Bool
  | [] => false
  | c :: rest => c.isAlpha && rest.all isWordChar

end Motif.Text
