import Motif.Registry.Description

/-!
# Removing and renaming

A pattern may be removed as soon as no other one refers to it. A pattern may get another name if
that name is free, and another kind with it.
-/

namespace Motif.Registry

/-- The other registered patterns that refer to an id, with their serials. -/
def dependents (registry : Registry) (serial : Serial) (id : Int) : List (Serial × Pattern) :=
  registry.registered.filter fun other => other.1 ≠ serial && other.2.refersTo id

/-- The table without the entries of a key that lead to a serial. -/
def dropEntry (table : List (String × Serial)) (key : Option String) (serial : Serial) :
    List (String × Serial) :=
  table.filter fun entry => !(some entry.1 = key && entry.2 = serial)

/-- Removes a pattern to which no other one refers. Nothing happens if it is not registered. -/
def unregister (serial : Serial) (pattern : Pattern) : Action Unit := do
  let registry ← getThe Registry
  let users := registry.dependents serial pattern.id
  if !users.isEmpty then
    let identity ← pattern.identity
    let others ← users.mapM fun user => user.2.identity
    throw (.stillReferenced identity others)
  if registry.isRegistered serial then
    set { registry with
      entries := registry.entries.filter fun entry => entry.2 ≠ serial
      names := dropEntry registry.names pattern.name serial
      literals := dropEntry registry.literals pattern.literal? serial
      trees := registry.trees.erase serial
      descriptions := registry.descriptions.erase serial }

/-- Gives a pattern a name that no other one has, and a kind if one is given. -/
def rename (serial : Serial) (pattern : Pattern) (name : String) (kind : Option Kind := none) :
    Action Unit := do
  let registry ← getThe Registry
  if (registry.named? name).any (· ≠ serial) then
    throw (.pattern { cause := .nameTaken, name := some name })
  let renamed := { pattern with name := some name, kind := kind.getD pattern.kind }
  let others := (dropEntry registry.names pattern.name serial).filter fun entry => entry.1 ≠ name
  set { registry with
    ledger := registry.ledger.setIfInBounds serial renamed
    names := (name, serial) :: others }

end Motif.Registry
