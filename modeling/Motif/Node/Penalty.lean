import Motif.Fault

/-!
# Penalties

The penalty of a pattern measures how complex it is: each node costs one, a look two more, a
quantifier one more, and a reference adds the penalty of its pattern. Of several alternatives the
most costly counts.
-/

namespace Motif.Node

/-- What a node costs by itself. -/
def ownPenalty (quantity : Quantity) (look : Look) : Int :=
  1 + (if look ≠ .here then 2 else 0) + (if quantity ≠ .once then 1 else 0)

mutual

/-- The penalty of a node, `cost` giving the penalty of each pattern. -/
def penalty (cost : Int → Except Fault Int) : Node → Except Fault Int
  | ref id quantity look => do return ownPenalty quantity look + (← cost id)
  | group alternatives quantity look => do
    return ownPenalty quantity look + (← worstPenalty cost alternatives)

/-- The sum of the penalties in a sequence. -/
def totalPenalty (cost : Int → Except Fault Int) : List Node → Except Fault Int
  | [] => return 0
  | node :: rest => do
    let first ← penalty cost node
    return first + (← totalPenalty cost rest)

/-- The greatest penalty of an alternative, and at least zero. -/
def worstPenalty (cost : Int → Except Fault Int) : List (List Node) → Except Fault Int
  | [] => return 0
  | sequence :: rest => do
    let first ← totalPenalty cost sequence
    return max first (← worstPenalty cost rest)

end

end Motif.Node
