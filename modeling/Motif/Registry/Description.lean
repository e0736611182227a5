import Motif.Registry.Basic

/-!
# Descriptions

A pattern is described in the language of patterns. A reference is written as the identity of its
pattern where it has a name; a nameless tree is written out in parentheses, unless its id is
asked for or it stands inside a look-behind. A full description spells out literals and needs no
names at all.
-/

namespace Motif.Registry

/-- How references are written. -/
structure Style where
  /-- Nameless patterns are written as ids. -/
  useIds : Bool := false
  /-- Literals are written as their quoted text. -/
  full : Bool := false
deriving Repr, Inhabited

/-- The text of a bare reference, `inline` describing nameless trees. -/
def referenceText (registry : Registry) (inline : Pattern → Except Fault String) (style : Style)
    (behind : Bool) (id : Int) : Except Fault String := do
  let target ← registry.get id
  match target.content with
  | .literal text => if style.full then return Text.quote text else target.identity
  | .tree _ =>
    if target.name.isSome || style.useIds || behind then target.identity
    else return "(" ++ (← inline target) ++ ")"

/-- A quantifier or look binds to more than one atom of these alternatives unless they stand in
parentheses. There must be a first node to tell. -/
def isCompound : List (List Node) → Except Fault Bool
  | [] => .error .emptyGroup
  | [[]] => .error .emptyGroup
  | [[node]] => .ok node.isDecorated
  | _ => .ok true

/-- The text of a group, given those of its alternatives. -/
def groupText (top : Bool) (alternatives : List (List Node)) (quantity : Quantity) (look : Look)
    (texts : List String) : Except Fault String := do
  let compound ← isCompound alternatives
  let decorated := (Node.group alternatives quantity look).isDecorated
  let text := " | ".intercalate texts
  if (1 < alternatives.length && !top) || (decorated && compound) then
    return "(" ++ text ++ ")"
  else return text

mutual

/-- The text of a node, in or outside a look-behind; at the top, alternatives need no
parentheses. -/
def render (registry : Registry) (inline : Pattern → Except Fault String) (style : Style)
    (top behind : Bool) : Node → Except Fault String
  | .ref id quantity look => do
    let text ← referenceText registry inline style (behind || look = .behind) id
    return look.mark ++ text ++ quantity.suffix
  | .group alternatives quantity look => do
    let texts ← renderAlternatives registry inline style (behind || look = .behind) alternatives
    let text ← groupText top alternatives quantity look texts
    return look.mark ++ text ++ quantity.suffix

/-- The texts of the nodes of a sequence. -/
def renderSequence (registry : Registry) (inline : Pattern → Except Fault String) (style : Style)
    (behind : Bool) : List Node → Except Fault (List String)
  | [] => return []
  | node :: rest => do
    let text ← render registry inline style false behind node
    return text :: (← renderSequence registry inline style behind rest)

/-- The texts of the alternatives of a group. -/
def renderAlternatives (registry : Registry) (inline : Pattern → Except Fault String)
    (style : Style) (behind : Bool) : List (List Node) → Except Fault (List String)
  | [] => return []
  | sequence :: rest => do
    let texts ← renderSequence registry inline style behind sequence
    return " ".intercalate texts :: (← renderAlternatives registry inline style behind rest)

end

/-- The description of a pattern, written out through at most `depth` nameless patterns. -/
def describeWithin (registry : Registry) : Nat → Bool → Pattern → Except Fault String
  | 0, _, _ => .error .endless
  | depth + 1, useIds, pattern =>
    match pattern.content with
    | .literal text => .ok (Text.quote text)
    | .tree root => render registry (describeWithin registry depth false) { useIds } true false root

/-- A chain of different registered patterns is no longer than this. -/
def depthBound (registry : Registry) : Nat :=
  registry.size + 1

/-- The description of a pattern. -/
def describe (registry : Registry) (pattern : Pattern) (useIds : Bool := false) :
    Except Fault String :=
  registry.describeWithin registry.depthBound useIds pattern

/-- The description of a node. -/
def describeNode (registry : Registry) (node : Node) (useIds : Bool := false)
    (top : Bool := false) : Except Fault String :=
  render registry (registry.describeWithin registry.depthBound false) { useIds } top false node

/-- The identity of a pattern with a name, and the description of one without. -/
def display (registry : Registry) (pattern : Pattern) : Except Fault String :=
  if pattern.name.isSome then pattern.identity else registry.describe pattern

end Motif.Registry
