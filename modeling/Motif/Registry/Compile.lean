import Motif.Node.Parser
import Motif.Node.Penalty
import Motif.Node.Reduce
import Motif.Registry.Basic

/-!
# Compiling patterns

Pattern text is compiled against a registry, in which its references must be found. The tree is
reduced, checked for what may not stand inside a look-behind, and weighed.
-/

namespace Motif.Registry

/-- The patterns that a text can refer to. -/
def scope (registry : Registry) : Node.Scope where
  hasId id := (registry.byId? id).isSome
  idOf name := ((registry.named? name).bind registry.pattern?).map Pattern.id

/-- The reduced tree of a pattern text. -/
def compileTree (scope : Node.Scope) (text : String) (name : Option String := none) :
    Except Fault Node := do
  let lexemes ← (Lexeme.read text name).mapError .pattern
  let root := (← Node.ofLexemes scope lexemes name).reduceRoot
  match root.lookBehindFault? with
  | some fault => throw (.pattern { cause := .lookBehindContent fault, name })
  | none => return root

/-- Compiles a pattern text without registering it. -/
def compile (registry : Registry) (text : String) (name : Option String := none)
    (kind : Kind := .experimental) : Except Fault Pattern := do
  let root ← compileTree registry.scope text name
  let penalty ← root.penalty fun id => (registry.get id).map Pattern.penalty
  return { kind, name, content := .tree root, penalty }

/-- Compiles a pattern text and registers it, under an id of its own if one is given. -/
def register (name : Option String) (kind : Kind) (text : String) (id : Int := -1) :
    Action Serial := do
  let registry ← getThe Registry
  registry.checkName name
  let pattern ← registry.compile text name kind
  add { pattern with id }

end Motif.Registry
