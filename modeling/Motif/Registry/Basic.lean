import Motif.Pattern
import Std.Data.TreeMap

/-!
# The registry of patterns

Every pattern ever made is kept in a ledger, addressed by its serial number, and stays the same
pattern whatever it is called later. The registered ones are listed in the order of their
registration, with their ids; names and literal texts lead to serials too. Ids come from a
counter and are not given twice.
-/

namespace Motif

/-- The place of a pattern in the ledger. -/
abbrev Serial := Nat

/-- The patterns known to one session of parsing or training. -/
structure Registry where
  /-- Every pattern ever made, by serial. -/
  ledger : Array Pattern := #[]
  /-- The registered patterns: id and serial, in the order of registration. -/
  entries : List (Int × Serial) := []
  /-- The pattern of each name. -/
  names : List (String × Serial) := []
  /-- One pattern of each literal text. -/
  literals : List (String × Serial) := []
  /-- The next id that the counter gives. -/
  nextId : Int := 0
  /-- Expanded trees that have been computed. -/
  trees : Std.TreeMap Serial Node := {}
  /-- Full descriptions that have been computed. -/
  descriptions : Std.TreeMap Serial String := {}
deriving Inhabited

namespace Registry

/-- An operation on a registry. What it has changed stays changed also if it fails. -/
abbrev Action (α : Type) := ExceptT Fault (StateM Registry) α

/-- The number of registered patterns. -/
def size (registry : Registry) : Nat :=
  registry.entries.length

/-- The pattern of a serial. -/
def pattern? (registry : Registry) (serial : Serial) : Option Pattern :=
  registry.ledger[serial]?

/-- The serial of the pattern registered under an id. -/
def serialOf? (registry : Registry) (id : Int) : Option Serial :=
  registry.entries.lookup id

/-- The pattern registered under an id. -/
def byId? (registry : Registry) (id : Int) : Option Pattern :=
  (registry.serialOf? id).bind registry.pattern?

/-- The serial of the pattern of a name. -/
def named? (registry : Registry) (name : String) : Option Serial :=
  registry.names.lookup name

/-- The serial of a pattern with a literal text. -/
def literalFor? (registry : Registry) (text : String) : Option Serial :=
  registry.literals.lookup text

/-- The pattern registered under an id that has to be there. -/
def get (registry : Registry) (id : Int) : Except Fault Pattern :=
  match registry.byId? id with
  | some pattern => .ok pattern
  | none => .error (.missing id)

/-- The registered patterns with their serials, in the order of registration. -/
def registered (registry : Registry) : List (Serial × Pattern) :=
  registry.entries.filterMap fun entry => (registry.pattern? entry.2).map (entry.2, ·)

/-- The registered patterns in the order of registration. -/
def patterns (registry : Registry) : List Pattern :=
  registry.registered.map Prod.snd

/-- The pattern of a serial is registered, and not merely another one of its id. -/
def isRegistered (registry : Registry) (serial : Serial) : Bool :=
  match registry.pattern? serial with
  | some pattern => registry.serialOf? pattern.id = some serial
  | none => false

/-- Puts a pattern into the ledger without registering it. -/
def keep (pattern : Pattern) : Action Serial := do
  let serial := (← getThe Registry).ledger.size
  modify fun registry => { registry with ledger := registry.ledger.push pattern }
  return serial

/-- Puts a pattern into the place of a serial in the ledger. -/
def revise (serial : Serial) (pattern : Pattern) : Action Serial := do
  modify fun registry =>
    { registry with ledger := registry.ledger.setIfInBounds serial pattern }
  return serial

/-- Refuses a name that a pattern has. -/
def checkName (registry : Registry) (name : Option String) : Except Fault Unit :=
  match name with
  | none => .ok ()
  | some taken =>
    if (registry.named? taken).isNone then .ok ()
    else .error (.pattern { cause := .nameTaken, name })

/-- Registers a pattern that `place` puts into the ledger. One without an id gets the next one; an id
must be free. The pattern is registered also if its identity cannot be written in the end. -/
def enroll (place : Pattern → Action Serial) (pattern : Pattern) : Action Serial := do
  let registry ← getThe Registry
  registry.checkName pattern.name
  if 0 ≤ pattern.id && (registry.serialOf? pattern.id).isSome then
    throw (.idTaken pattern.id)
  let id := if pattern.id < 0 then registry.nextId else pattern.id
  let serial ← place { pattern with id }
  modify fun registry => { registry with
    entries := registry.entries ++ [(id, serial)]
    nextId := max registry.nextId (id + 1)
    names := match pattern.name with
      | some name => (name, serial) :: registry.names
      | none => registry.names
    literals := match pattern.literal? with
      | some text =>
        if (registry.literalFor? text).isSome then registry.literals
        else (text, serial) :: registry.literals
      | none => registry.literals }
  let _ ← Pattern.identity { pattern with id }
  return serial

/-- Registers a new pattern. -/
def add (pattern : Pattern) : Action Serial :=
  enroll keep pattern

/-- Registers a pattern that is in the ledger. -/
def addKept (serial : Serial) (pattern : Pattern) : Action Serial :=
  enroll (revise serial) pattern

/-- Registers a literal text. -/
def addLiteral (text : String) (name : Option String := none) (id : Int := -1)
    (kind : Kind := .literal) : Action Serial :=
  add { kind, name, content := .literal text, id }

end Registry

end Motif
