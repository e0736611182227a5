import Motif.Node.Basic

/-!
# Reduction of pattern trees

Groups are associative: `A (B C) D` means `A B C D`, and a whole pattern `(A | B)` means `A | B`.
Reduction removes such groups from the bottom up, so that patterns which differ only in
superfluous parentheses get the same tree.
-/

namespace Motif.Node

/-- A plain group with a single sequence, which can be spliced into the sequence around it. -/
def isTransparent : Node → Bool
  | group [_] ⟨1, 1⟩ .here => true
  | _ => false

/-- The nodes that stand for a node in the sequence around it. -/
def spliced : Node → List Node
  | group [sequence] ⟨1, 1⟩ .here => sequence
  | node => [node]

mutual

/-- The node with every transparent group below it spliced into the sequence around it. -/
def reduce : Node → Node
  | ref id quantity look => ref id quantity look
  | group alternatives quantity look => group (reduceAlternatives alternatives) quantity look

/-- Reduces each node of a sequence and splices it in. -/
def reduceSequence : List Node → List Node
  | [] => []
  | node :: rest => node.reduce.spliced ++ reduceSequence rest

/-- Reduces each alternative. -/
def reduceAlternatives : List (List Node) → List (List Node)
  | [] => []
  | sequence :: rest => reduceSequence sequence :: reduceAlternatives rest

end

/-- The alternatives inside a pattern that is nothing but one plain group. -/
def unwrap : List (List Node) → List (List Node)
  | [[group inner ⟨1, 1⟩ .here]] => unwrap inner
  | alternatives => alternatives

/-- The reduced tree of a whole pattern: reduced, and without a lone plain group around it. The
quantity and look of the pattern itself stay only where nothing is unwrapped. -/
def reduceRoot (root : Node) : Node :=
  match root.reduce with
  | group [[group inner ⟨1, 1⟩ .here]] _ _ => plainGroup (unwrap inner)
  | reduced => reduced

end Motif.Node
