/-!
# Pattern trees

A compiled pattern is a tree. A reference matches the registered pattern of its id. A group holds
ordered alternatives, each a sequence of nodes, so `A (B | C D) E` is a group with one sequence
of three nodes whose middle one is a group with two sequences. Every node carries how often it
repeats and where it looks.
-/

namespace Motif

/-- Where a node is matched: on the text to be consumed, or on the text ahead of the current
position or behind it without consuming any. -/
inductive Look where
  | here
  | ahead
  | behind
deriving DecidableEq, Repr, Inhabited

/-- How often a node repeats: at least `least` times and at most `most` times. -/
structure Quantity where
  least : Int
  most : Int
deriving DecidableEq, Repr, Inhabited

namespace Quantity

/-- The `most` of a repetition without upper bound. -/
def unlimited : Int := -1

/-- Exactly one time: the quantity of a node without quantifier. -/
def once : Quantity := ⟨1, 1⟩

/-- Not even one time. -/
def never : Quantity := ⟨0, 0⟩

/-- A repetition without upper bound. -/
def isUnlimited (quantity : Quantity) : Bool :=
  quantity.most = unlimited

/-- A quantity that requires the absence of its node. -/
def isNegative (quantity : Quantity) : Bool :=
  quantity.most = 0

/-- The quantifier of a quantity as it is written behind an atom. -/
def suffix (quantity : Quantity) : String :=
  let bounds (text : String) := "\x7b" ++ text ++ "\x7d"
  if quantity = ⟨0, 0⟩ then "!"
  else if quantity = ⟨0, 1⟩ then "?"
  else if quantity = ⟨0, unlimited⟩ then "*"
  else if quantity = ⟨1, unlimited⟩ then "+"
  else if quantity.most = unlimited then bounds (toString quantity.least ++ "+")
  else if quantity.least = quantity.most && quantity.least ≠ 1 then
    bounds (toString quantity.least)
  else if quantity = once then ""
  else bounds (toString quantity.least ++ "-" ++ toString quantity.most)

end Quantity

/-- The mark before a node that looks around. -/
def Look.mark : Look → String
  | .here => ""
  | .ahead => ">"
  | .behind => "<"

/-- A node of a pattern tree. -/
inductive Node where
  | ref (id : Int) (quantity : Quantity) (look : Look)
  | group (alternatives : List (List Node)) (quantity : Quantity) (look : Look)
deriving Repr, Inhabited

namespace Node

/-- How often the node repeats. -/
def quantity : Node → Quantity
  | ref _ quantity _ => quantity
  | group _ quantity _ => quantity

/-- Where the node is matched. -/
def look : Node → Look
  | ref _ _ look => look
  | group _ _ look => look

/-- The node with another quantity. -/
def withQuantity (node : Node) (quantity : Quantity) : Node :=
  match node with
  | ref id _ look => ref id quantity look
  | group alternatives _ look => group alternatives quantity look

/-- The node with another look. -/
def withLook (node : Node) (look : Look) : Node :=
  match node with
  | ref id quantity _ => ref id quantity look
  | group alternatives quantity _ => group alternatives quantity look

/-- A reference without quantifier or look. -/
def plainRef (id : Int) : Node :=
  ref id .once .here

/-- A group without quantifier or look. -/
def plainGroup (alternatives : List (List Node)) : Node :=
  group alternatives .once .here

/-- A node that repeats other than exactly one time. -/
def isQuantified (node : Node) : Bool :=
  node.quantity ≠ .once

/-- A node that requires its own absence. -/
def isNegative (node : Node) : Bool :=
  node.quantity.isNegative

/-- A node with a quantifier or a look. -/
def isDecorated (node : Node) : Bool :=
  node.isQuantified || node.look ≠ .here

mutual

/-- The ids that a node refers to, in the order in which they are written. -/
def references : Node → List Int
  | ref id _ _ => [id]
  | group alternatives _ _ => referencesOfAlternatives alternatives

/-- The ids that a sequence of nodes refers to. -/
def referencesOfSequence : List Node → List Int
  | [] => []
  | node :: rest => node.references ++ referencesOfSequence rest

/-- The ids that a list of alternatives refers to. -/
def referencesOfAlternatives : List (List Node) → List Int
  | [] => []
  | sequence :: rest => referencesOfSequence sequence ++ referencesOfAlternatives rest

end

end Node

end Motif
