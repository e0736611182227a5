import Motif.Registry.Table
import Motif.Session.Basic

/-!
# Work on patterns

The requests of a session about its registry: making, finding, removing and describing patterns,
and exchanging whole tables.
-/

namespace Motif.Session

/-- All descriptions of a pattern together. -/
structure Views where
  describe : String
  ids : String
  display : String
  full : String
  /-- The identity of an equivalent pattern. -/
  sameAs : Option String
deriving DecidableEq, Repr

/-- Registers a pattern made from its parts. -/
def addParts (kind : Kind) (name : Option String) (literal : Option String) (root : Option Node)
    (penalty id : Int) : Action Serial := do
  let content ← Content.ofParts literal root
  onRegistry (Registry.add { kind, name, content, penalty, id })

/-- Compiles a pattern and keeps it without registering it. -/
def compile (text : String) (name : Option String) (kind : Kind) : Action Serial := do
  let pattern ← (← getThe Session).registry.compile text name kind
  onRegistry (Registry.keep pattern)

/-- Removes a pattern. -/
def unregister (target : Target) : Action Unit := do
  let (serial, pattern) ← resolve target
  onRegistry (Registry.unregister serial pattern)

/-- Renames a pattern. -/
def rename (target : Target) (name : String) (kind : Option Kind) : Action Serial := do
  let (serial, pattern) ← resolve target
  onRegistry (Registry.rename serial pattern name kind)
  return serial

/-- The pattern of an id or a name, if there is one. -/
def find? (target : Target) : Action (Option Pattern) := do
  let registry := (← getThe Session).registry
  match target with
  | .id id => return registry.byId? id
  | .name name => return (registry.named? name).bind registry.pattern?
  | other => return some (← resolve other).2

/-- A bare id is registered, or the pattern named otherwise is. No bare name is an id. -/
def contains (target : Target) : Action Bool := do
  match target with
  | .id id => return ((← getThe Session).registry.serialOf? id).isSome
  | .name _ => return false
  | other =>
    let (serial, _) ← resolve other
    return (← getThe Session).registry.isRegistered serial

/-- The identity of the pattern that is equivalent to one. -/
def equivalentIdentity (serial : Serial) (pattern : Pattern) : Action (Option String) := do
  match ← onRegistry (Registry.equivalent? pattern (some serial)) with
  | none => return none
  | some other => return some (← (← patternOf other).identity)

/-- The identity of a pattern equivalent to the one named. -/
def equivalent (target : Target) : Action (Option String) := do
  let (serial, pattern) ← resolve target
  equivalentIdentity serial pattern

/-- The full description of the pattern named. -/
def fullDescription (target : Target) : Action String := do
  let (serial, pattern) ← resolve target
  onRegistry (Registry.fullDescription serial pattern)

/-- All descriptions of a pattern. -/
def viewsOf (serial : Serial) (pattern : Pattern) : Action Views := do
  let sameAs ← equivalentIdentity serial pattern
  let registry := (← getThe Session).registry
  let describe ← registry.describe pattern
  let ids ← registry.describe pattern true
  let display ← registry.display pattern
  let full ← onRegistry (Registry.fullDescription serial pattern)
  return { describe, ids, display, full, sameAs }

/-- All descriptions of the pattern named. -/
def views (target : Target) : Action Views := do
  let (serial, pattern) ← resolve target
  viewsOf serial pattern

/-- The identities of the patterns that refer to the one named. -/
def dependents (target : Target) : Action (List String) := do
  let (serial, pattern) ← resolve target
  let users := (← getThe Session).registry.dependents serial pattern.id
  users.mapM fun user => user.2.identity

/-- The pattern named first refers to the other one. -/
def dependsOn (target other : Target) : Action Bool := do
  let (_, pattern) ← resolve target
  let (_, used) ← resolve other
  return pattern.refersTo used.id

/-- Registers the patterns of a table. -/
def load (text : String) : Action Unit :=
  onRegistry (Registry.Table.read text)

/-- An empty registry that shares the ledger of another one. -/
def emptied (registry : Registry) : Registry :=
  { ledger := registry.ledger }

/-- Replaces the registry by one with the patterns of a table, if the table can be read. -/
def loadFresh (text : String) : Action Unit := do
  let session ← getThe Session
  match (Registry.Table.read text).run (emptied session.registry) with
  | (.ok _, registry) => set { session.separateRegistry with registry }
  | (.error fault, _) => throw fault

/-- Writes the registry as a table and reads it again in its place. The answer is whether the new
registry has the same table. -/
def reload : Action Bool := do
  let table ← Registry.Table.write (← getThe Session).registry
  loadFresh table
  return (← Registry.Table.write (← getThe Session).registry) = table

/-- The rows of the table of the registry with ids from `first` on. -/
def newPatterns (first : Int) : Action (List String) := do
  let table ← Registry.Table.write (← getThe Session).registry
  Registry.Table.rowsFrom table first

end Motif.Session
