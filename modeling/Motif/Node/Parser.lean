import Motif.Lexeme.Lexer
import Motif.Lexeme.Range
import Motif.Text.Quoted

/-!
# Reading pattern trees

Lexemes are read one by one from left to right. What has been read is a stack of open groups,
the innermost on top; a closing parenthesis turns the innermost group into an atom of the group
around it. A look waits for the atom after it, and a quantifier applies to the atom before it.
-/

namespace Motif.Node

/-- The patterns that a text may refer to. -/
structure Scope where
  /-- A pattern has this id. -/
  hasId : Int → Bool
  /-- The id of the pattern of a name. -/
  idOf : String → Option Int

namespace Parser

/-- What a quantifier would apply to if it came next. -/
inductive Target where
  | nothing
  /-- The last atom of the sequence. -/
  | atom
  /-- The last atom, which is required to be absent and so takes no quantifier. -/
  | assertion
deriving DecidableEq, Repr, Inhabited

/-- A group whose end has not been read. -/
structure OpenGroup where
  /-- The lexeme that opened the group; the whole pattern has none. -/
  opening : Option Lexeme := none
  /-- The alternatives read in full, the last one first. -/
  finished : List (List Node) := []
  /-- The nodes of the current alternative, the last one first. -/
  sequence : List Node := []
  /-- A look that waits for its atom, and where it was read. -/
  pending : Option (LookMark × Nat) := none
  target : Target := .nothing
deriving Repr, Inhabited

/-- What has been read of a pattern. -/
structure Progress where
  /-- The innermost open group. -/
  inner : OpenGroup := {}
  /-- The open groups around it, from the inside out. -/
  outer : List OpenGroup := []
  /-- The last lexeme read. -/
  previous : Option Lexeme := none
deriving Repr, Inhabited

/-- A fault at a lexeme of a pattern. -/
def blame {α : Type} (name : Option String) (lexeme : Lexeme) (cause : PatternFault.Cause) :
    Except Fault α :=
  .error (.pattern { cause, position := lexeme.position, token := lexeme.text, name })

/-- The tree of a group at its end. -/
def OpenGroup.toNode (group : OpenGroup) : Node :=
  plainGroup (group.sequence.reverse :: group.finished).reverse

/-- The group with an atom added, which takes the look that waits for it. -/
def OpenGroup.push (group : OpenGroup) (atom : Node) : OpenGroup :=
  match group.pending with
  | none => { group with sequence := atom :: group.sequence, target := .atom }
  | some (mark, _) =>
    let looking := atom.withLook mark.look
    match mark with
    | .notBehind =>
      { group with
        sequence := looking.withQuantity .never :: group.sequence
        pending := none
        target := .assertion }
    | _ =>
      { group with sequence := looking :: group.sequence, pending := none, target := .atom }

/-- An alternative may end at a lexeme only if no look waits and a node was read. -/
def OpenGroup.checkEnd (name : Option String) (group : OpenGroup) (lexeme : Lexeme) :
    Except Fault Unit :=
  match group.pending with
  | some (mark, _) => blame name lexeme (.lookBefore mark.text lexeme.text)
  | none =>
    if group.sequence.isEmpty then blame name lexeme (.emptySequenceBefore lexeme.text)
    else .ok ()

/-- The id of the pattern that a lexeme refers to. -/
def resolve (scope : Scope) (name : Option String) (lexeme : Lexeme) : Except Fault Int :=
  match lexeme.symbol with
  | .id text => do
    let id ← Quantity.readBound (Text.trim (text.toList.drop 1).dropLast)
    if scope.hasId id then return id else blame name lexeme (.unknownId id)
  | symbol =>
    let target := match symbol with
      | .quoted text => Text.unquote text
      | other => other.text
    match scope.idOf target with
    | some id => .ok id
    | none => blame name lexeme (.unknownName target)

/-- The quantity that a quantifier gives to an atom. -/
def quantityOf (name : Option String) (lexeme : Lexeme) : Except Fault Quantity :=
  match lexeme.symbol with
  | .quantity mark => .ok mark.quantity
  | symbol => do
    let quantity ← Quantity.ofRange symbol.text
    if !quantity.isUnlimited && quantity.most < quantity.least then
      blame name lexeme (.reversedRange symbol.text)
    else return quantity

/-- The innermost group after a quantifier. -/
def quantify (name : Option String) (progress : Progress) (lexeme : Lexeme) :
    Except Fault OpenGroup :=
  let group := progress.inner
  match group.pending, group.target, group.sequence with
  | some (mark, _), _, _ => blame name lexeme (.quantifierAfterLook mark.text lexeme.text)
  | none, .assertion, _ => blame name lexeme (.quantifierAfterAssertion lexeme.text)
  | none, .atom, atom :: sequence => do
    let quantity ← quantityOf name lexeme
    if atom.look = .behind && quantity ≠ .never then
      blame name lexeme (.quantifiedLookBehind lexeme.text)
    else return {
      group with sequence := atom.withQuantity quantity :: sequence, target := .nothing }
  | none, _, _ =>
    match progress.previous with
    | none => blame name lexeme (.quantifierAtStart lexeme.text)
    | some previous => blame name lexeme (.quantifierAfter lexeme.text previous.text)

/-- Reads one lexeme. -/
def step (scope : Scope) (name : Option String) (progress : Progress) (lexeme : Lexeme) :
    Except Fault Progress :=
  let group := progress.inner
  match lexeme.symbol with
  | .opening => .ok {
      inner := { opening := lexeme }
      outer := group :: progress.outer
      previous := lexeme }
  | .closing => do
    group.checkEnd name lexeme
    match progress.outer with
    | [] => blame name lexeme (.trailing lexeme.text)
    | around :: outer => return { inner := around.push group.toNode, outer, previous := lexeme }
  | .bar => do
    group.checkEnd name lexeme
    return { progress with
      inner := { group with
        finished := group.sequence.reverse :: group.finished
        sequence := []
        target := if group.target = .assertion then .assertion else .nothing }
      previous := lexeme }
  | .look mark =>
    match group.pending with
    | some (waiting, _) => blame name lexeme (.lookBefore waiting.text lexeme.text)
    | none => .ok { progress with
        inner := { group with pending := some (mark, lexeme.position) }
        previous := lexeme }
  | .range _ | .quantity _ => do
    let inner ← quantify name progress lexeme
    return { progress with inner, previous := lexeme }
  | _ => do
    let id ← resolve scope name lexeme
    return { progress with inner := group.push (plainRef id), previous := lexeme }

/-- The tree of what has been read, at the end of the text. -/
def finish (name : Option String) (progress : Progress) : Except Fault Node :=
  match progress.inner.pending, progress.previous with
  | some (mark, position), _ =>
    blame name ⟨.look mark, position⟩ (.danglingLook mark.text)
  | none, none => .error (.pattern { cause := .emptyPattern, position := some 0, name })
  | none, some last =>
    if progress.inner.sequence.isEmpty then blame name last .emptySequenceAtEnd
    else
      match progress.inner.opening with
      | some opening => blame name opening .unclosedGroup
      | none => .ok progress.inner.toNode

end Parser

/-- The tree of a list of lexemes, as it is written. -/
def ofLexemes (scope : Scope) (lexemes : List Lexeme) (name : Option String := none) :
    Except Fault Node := do
  let progress ← lexemes.foldlM (Parser.step scope name) {}
  Parser.finish name progress

end Motif.Node
