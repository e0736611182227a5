import Motif.Text.Blank

/-!
# Kinds of patterns

A pattern's kind is its maturity, from the literals on which all else rests to the experiments
that training may drop again. Kinds are ranked from 1 to 4.
-/

namespace Motif

/-- The maturity of a pattern. -/
inductive Kind where
  | literal
  | basics
  | derived
  | experimental
deriving DecidableEq, Repr, Inhabited

namespace Kind

/-- The rank of a kind, from 1 for literals to 4 for experiments. -/
def rank : Kind → Nat
  | literal => 1
  | basics => 2
  | derived => 3
  | experimental => 4

instance : LE Kind := ⟨fun a b => a.rank ≤ b.rank⟩

instance (a b : Kind) : Decidable (a ≤ b) := inferInstanceAs (Decidable (a.rank ≤ b.rank))

/-- The written name of a kind. -/
def label : Kind → String
  | literal => "Literal"
  | basics => "Basics"
  | derived => "Derived"
  | experimental => "Experimental"

/-- The kinds in the order of their ranks. -/
def all : List Kind := [literal, basics, derived, experimental]

/-- The kind of a rank. -/
def ofRank? (rank : Int) : Option Kind :=
  all.find? fun kind => (kind.rank : Int) = rank

/-- The capital of a letter, as far as it can matter to the name of a kind: besides the ASCII
letters, the dotless i and the long s have ASCII capitals. -/
def capital (c : Char) : Char :=
  if c = 'ı' then 'I' else if c = 'ſ' then 'S' else c.toUpper

/-- The kind of a written name, in any mixture of cases and with blanks around it. -/
def ofName? (name : String) : Option Kind :=
  let key := (Text.trim name.toList).map capital
  all.find? fun kind => kind.label.toList.map Char.toUpper = key

theorem ofRank?_rank (kind : Kind) : ofRank? kind.rank = some kind := by
  cases kind <;> rfl

theorem ofName?_label (kind : Kind) : ofName? kind.label = some kind := by
  cases kind <;> decide +kernel

end Kind

end Motif
