import Std.Data.TreeMap

/-!
# Maps in order of arrival

A map that lists its keys in the order in which they first came. Each key carries the number of
its arrival beside its value; a key that comes again keeps its number.
-/

namespace Motif

/-- A map from keys to values that remembers the order of its keys. -/
structure ArrivalMap (κ : Type) (ν : Type) (cmp : κ → κ → Ordering) where
  /-- Each key with the number of its arrival and its value. -/
  table : Std.TreeMap κ (Nat × ν) cmp := {}

namespace ArrivalMap

variable {κ ν : Type} {cmp : κ → κ → Ordering}

instance : Inhabited (ArrivalMap κ ν cmp) := ⟨{}⟩

/-- The map without keys. -/
def empty : ArrivalMap κ ν cmp := {}

/-- The number of keys. -/
def size (map : ArrivalMap κ ν cmp) : Nat :=
  map.table.size

/-- The value of a key. -/
def get? (map : ArrivalMap κ ν cmp) (key : κ) : Option ν :=
  map.table[key]?.map Prod.snd

/-- The value of a key, or else a given one. -/
def getD (map : ArrivalMap κ ν cmp) (key : κ) (fallback : ν) : ν :=
  (map.get? key).getD fallback

/-- The map with the value of a key changed by `change`, which is applied to `fallback` if the key
is new. -/
def update (map : ArrivalMap κ ν cmp) (key : κ) (fallback : ν) (change : ν → ν) :
    ArrivalMap κ ν cmp :=
  match map.table[key]? with
  | some (arrival, value) => ⟨map.table.insert key (arrival, change value)⟩
  | none => ⟨map.table.insert key (map.table.size, change fallback)⟩

/-- The keys with their values, in the order of arrival. -/
def toList (map : ArrivalMap κ ν cmp) : List (κ × ν) :=
  (map.table.toList.mergeSort fun a b => a.2.1 ≤ b.2.1).map fun entry => (entry.1, entry.2.2)

theorem get?_update [Std.TransCmp cmp] (map : ArrivalMap κ ν cmp) (key other : κ) (fallback : ν)
    (change : ν → ν) :
    (map.update key fallback change).get? other =
      if cmp key other = .eq then some (change (map.getD key fallback)) else map.get? other := by
  unfold update getD get?
  split
  next arrival value hvalue => rw [Std.TreeMap.getElem?_insert]; split <;> simp [hvalue]
  next hvalue => rw [Std.TreeMap.getElem?_insert]; split <;> simp [hvalue]

end ArrivalMap

end Motif
