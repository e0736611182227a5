import Motif.Node.Basic

/-!
# Lexemes

Pattern text is made of lexemes: references to patterns by name, by quoted name or by id in
brackets, parentheses, the bar between alternatives, marks that look around, and quantifiers.
-/

namespace Motif

/-- The marks before an atom that looks around. -/
inductive LookMark where
  /-- Looks behind. -/
  | behind
  /-- Looks ahead. -/
  | ahead
  /-- Looks behind and requires absence. -/
  | notBehind
deriving DecidableEq, Repr, Inhabited

namespace LookMark

/-- The mark as written. -/
def text : LookMark → String
  | behind => "<"
  | ahead => ">"
  | notBehind => "^"

/-- Where an atom with this mark looks. -/
def look : LookMark → Look
  | behind => .behind
  | ahead => .ahead
  | notBehind => .behind

end LookMark

/-- The quantifiers of a single character. -/
inductive QuantityMark where
  | never
  | optional
  | many
  | some
deriving DecidableEq, Repr, Inhabited

namespace QuantityMark

/-- The mark as written. -/
def text : QuantityMark → String
  | never => "!"
  | optional => "?"
  | many => "*"
  | some => "+"

/-- The quantity a mark stands for. -/
def quantity : QuantityMark → Quantity
  | never => .never
  | optional => ⟨0, 1⟩
  | many => ⟨0, Quantity.unlimited⟩
  | some => ⟨1, Quantity.unlimited⟩

end QuantityMark

/-- What a lexeme is; those of free form keep their text as written. -/
inductive Symbol where
  /-- A range of repetitions in braces. -/
  | range (text : String)
  /-- An id in brackets. -/
  | id (text : String)
  /-- A name between quotes. -/
  | quoted (text : String)
  /-- A name that is a plain word. -/
  | name (text : String)
  | opening
  | closing
  | bar
  | look (mark : LookMark)
  | quantity (mark : QuantityMark)
deriving DecidableEq, Repr, Inhabited

namespace Symbol

/-- The lexeme as written. -/
def text : Symbol → String
  | range text => text
  | id text => text
  | quoted text => text
  | name text => text
  | opening => "("
  | closing => ")"
  | bar => "|"
  | look mark => mark.text
  | quantity mark => mark.text

/-- The class of the lexeme in words. -/
def label : Symbol → String
  | range _ => "range"
  | id _ => "id"
  | quoted _ => "quoted"
  | name _ => "name"
  | _ => "op"

end Symbol

/-- A lexeme and the position in the text at which it starts. -/
structure Lexeme where
  symbol : Symbol
  position : Nat
deriving DecidableEq, Repr, Inhabited

/-- The lexeme as written. -/
def Lexeme.text (lexeme : Lexeme) : String :=
  lexeme.symbol.text

end Motif
