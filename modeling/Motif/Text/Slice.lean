/-!
# Cuts by signed places

A place in a sequence may be counted from its end: a negative place `-n` means `n` before the
end. Places outside the sequence mean its nearer end.
-/

namespace Motif.Text

/-- The place that a signed index means in a sequence of `size` elements. -/
def place (size : Nat) (index : Int) : Nat :=
  if index < 0 then ((size : Int) + index).toNat else min index.toNat size

/-- The first elements up to a signed place. -/
def takeTo {α : Type} (index : Int) (xs : List α) : List α :=
  xs.take (place xs.length index)

/-- The elements from a signed place on. -/
def dropTo {α : Type} (index : Int) (xs : List α) : List α :=
  xs.drop (place xs.length index)

/-- The characters between two signed places. -/
def between (cs : Array Char) (start stop : Int) : String :=
  String.ofList (cs.extract (place cs.size start) (place cs.size stop)).toList

end Motif.Text
