import Motif.Fault
import Motif.Text.Slice

/-!
# Settings in use

A setting may have been written with a value that its use cannot take. That is no fault until the
setting is used.
-/

namespace Motif

/-- The value of a setting, or the fault that its use causes. -/
abbrev Setting (α : Type) := Except Fault α

/-- The value of a setting, with another one in place of what is of no use. -/
def Setting.getD {α : Type} (setting : Setting α) (fallback : α) : α :=
  match setting with
  | .ok value => value
  | .error _ => fallback

/-- A number that others are compared with; without it there is no bound. -/
abbrev Limit := Option Int

namespace Limit

/-- The number is greater than the limit. -/
def isExceeded (limit : Limit) (number : Int) : Bool :=
  limit.any fun bound => bound < number

/-- The number is less than the limit. -/
def leavesRoom (limit : Limit) (number : Int) : Bool :=
  limit.all fun bound => number < bound

/-- The first elements up to the limit, which is a signed place. -/
def cut {α : Type} (limit : Limit) (xs : List α) : List α :=
  match limit with
  | none => xs
  | some place => Text.takeTo place xs

end Limit

end Motif
