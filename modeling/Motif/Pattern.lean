import Motif.Fault
import Motif.Kind
import Motif.Text.Quoted
import Motif.Text.Word

/-!
# Patterns

A pattern is a rule of the grammar: an exact text, or a tree built from other patterns. Its
identity is how pattern text refers to it: the name, quoted where it is not a plain word, or the
id in brackets.
-/

namespace Motif

/-- What a pattern matches. -/
inductive Content where
  | literal (text : String)
  | tree (root : Node)
deriving Repr, Inhabited

namespace Content

/-- The literal text, if the content is one. -/
def literal? : Content → Option String
  | literal text => some text
  | tree _ => none

/-- The tree, if the content is one. -/
def root? : Content → Option Node
  | literal _ => none
  | tree root => some root

/-- The content made of two optional parts, exactly one of which must be there. -/
def ofParts : Option String → Option Node → Except Fault Content
  | some text, none => .ok (literal text)
  | none, some root => .ok (tree root)
  | _, _ => .error .contentChoice

/-- The ids that a content refers to. -/
def references : Content → List Int
  | literal _ => []
  | tree root => root.references

end Content

/-- A rule of the grammar. A negative id means that the pattern has not been registered. -/
structure Pattern where
  kind : Kind
  name : Option String := none
  content : Content
  penalty : Int := 0
  id : Int := -1
deriving Repr, Inhabited

namespace Pattern

/-- A name that needs no quotes: a plain word. A line feed at the very end does not count. -/
def isPlainName (name : String) : Bool :=
  let cs := name.toList
  Text.isWord (if cs.getLast? = some '\n' then cs.dropLast else cs)

/-- An id in decimal digits, of which there must not be too many. -/
def writeId (id : Int) : Except Fault String :=
  if (toString id.natAbs).length ≤ Text.mostDigits then .ok (toString id)
  else .error (.integerTooLong none)

/-- How pattern text refers to the pattern. -/
def identity (pattern : Pattern) : Except Fault String :=
  match pattern.name with
  | some name => .ok (if isPlainName name then name else Text.quote name)
  | none =>
    if 0 ≤ pattern.id then return "[" ++ (← writeId pattern.id) ++ "]" else .error .noIdentity

/-- The literal text of the pattern, if it is a literal. -/
def literal? (pattern : Pattern) : Option String :=
  pattern.content.literal?

/-- The tree of the pattern, if it is not a literal. -/
def root? (pattern : Pattern) : Option Node :=
  pattern.content.root?

/-- The pattern refers directly to the pattern of an id. -/
def refersTo (pattern : Pattern) (id : Int) : Bool :=
  pattern.content.references.contains id

end Pattern

end Motif
