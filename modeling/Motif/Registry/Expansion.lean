import Motif.Registry.Compile
import Motif.Registry.Description

/-!
# Expansion and equivalence

The expanded tree of a pattern has every reference to a tree replaced by that tree, so that only
references to literals remain. Its full description therefore tells what the pattern is,
whatever its parts are called. Two patterns are equivalent if their full descriptions agree.
Expanded trees and full descriptions of registered patterns are computed once.
-/

namespace Motif

/-- The alternatives of a group. -/
def Node.alternatives : Node → List (List Node)
  | ref _ _ _ => []
  | group alternatives _ _ => alternatives

namespace Registry

mutual

/-- The tree with `replace` applied to every reference in it, from left to right. -/
def mapReferences (replace : Int → Quantity → Look → Action Node) : Node → Action Node
  | .ref id quantity look => replace id quantity look
  | .group alternatives quantity look => do
    return .group (← mapReferencesOfAlternatives replace alternatives) quantity look

/-- The sequence with every reference replaced. -/
def mapReferencesOfSequence (replace : Int → Quantity → Look → Action Node) :
    List Node → Action (List Node)
  | [] => return []
  | node :: rest => do
    let first ← mapReferences replace node
    return first :: (← mapReferencesOfSequence replace rest)

/-- The alternatives with every reference replaced. -/
def mapReferencesOfAlternatives (replace : Int → Quantity → Look → Action Node) :
    List (List Node) → Action (List (List Node))
  | [] => return []
  | sequence :: rest => do
    let first ← mapReferencesOfSequence replace sequence
    return first :: (← mapReferencesOfAlternatives replace rest)

end

/-- The reduced form of an expanded tree, which has to be a group. -/
def reducedExpansion (expanded : Node) : Except Fault Node :=
  match expanded with
  | .ref _ _ _ => .error .loneReference
  | group => .ok group.reduceRoot

/-- The value computed for a registered pattern before, or else the one that `compute` gives,
which is stored. A pattern that is not registered is computed anew each time. -/
def expandOnce (serial : Serial) (compute : Action Node) : Action Node := do
  match (← getThe Registry).trees[serial]? with
  | some tree => return tree
  | none =>
    let tree ← compute
    modify fun registry => { registry with trees := registry.trees.insert serial tree }
    return tree

/-- The expanded tree of a tree, through at most `depth` patterns. -/
def expandTree : Nat → Node → Action Node
  | 0, _ => throw .endless
  | depth + 1, root => do
    let expanded ← mapReferences (fun id quantity look => do
      let registry ← getThe Registry
      let target ← registry.get id
      match registry.serialOf? id, target.content with
      | some serial, .tree tree =>
        let inner ← expandOnce serial (expandTree depth tree)
        return .group inner.alternatives quantity look
      | _, _ => return .ref id quantity look) root
    reducedExpansion expanded

/-- The expanded tree of a pattern, stored if `serial` says that it is registered. -/
def expand (serial : Option Serial) (root : Node) : Action Node := do
  let compute := expandTree (← getThe Registry).depthBound root
  match serial with
  | some serial => expandOnce serial compute
  | none => compute

/-- The full description of a pattern, whose serial is given if it is registered. -/
def describeFully (serial : Option Serial) (pattern : Pattern) : Action String := do
  match pattern.content with
  | .literal text => return Text.quote text
  | .tree root =>
    let expanded ← expand serial root
    let registry ← getThe Registry
    render registry (registry.describeWithin registry.depthBound false) { full := true } true false
      expanded

/-- The serial, if its pattern is registered. -/
def ifRegistered (registry : Registry) (serial : Serial) : Option Serial :=
  if registry.isRegistered serial then some serial else none

/-- The full description of the pattern of a serial. -/
def fullDescription (serial : Serial) (pattern : Pattern) : Action String := do
  let registry ← getThe Registry
  if registry.isRegistered serial then
    match registry.descriptions[serial]? with
    | some text => return text
    | none =>
      let text ← describeFully (some serial) pattern
      modify fun registry =>
        { registry with descriptions := registry.descriptions.insert serial text }
      return text
  else describeFully none pattern

/-- The first of the given patterns, other than the one of serial `self`, with a full
description. -/
def firstDescribed (wanted : String) (self : Option Serial) :
    List (Serial × Pattern) → Action (Option Serial)
  | [] => return none
  | (serial, pattern) :: rest => do
    if self = some serial then firstDescribed wanted self rest
    else if (← fullDescription serial pattern) = wanted then return some serial
    else firstDescribed wanted self rest

/-- The first registered pattern that is equivalent to a pattern and is another one; `self` is
the serial of the pattern, if it has one. -/
def equivalent? (pattern : Pattern) (self : Option Serial := none) : Action (Option Serial) := do
  let registry ← getThe Registry
  let wanted ← describeFully (self.bind registry.ifRegistered) pattern
  firstDescribed wanted self registry.registered

/-- A pattern equivalent to a text is registered. -/
def existsEquivalent (text : String) : Action Bool := do
  let pattern ← (← getThe Registry).compile text
  return (← equivalent? pattern).isSome

/-- Registers a text as an experiment, unless an equivalent pattern is registered: then that one
stands for it. -/
def registerExperiment (text : String) : Action Serial := do
  let pattern ← (← getThe Registry).compile text
  match ← equivalent? pattern with
  | some serial => return serial
  | none => add pattern

end Registry

end Motif
