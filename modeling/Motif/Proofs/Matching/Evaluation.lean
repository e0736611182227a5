import Motif.Proofs.Registry.References

/-!
# Plain evaluation

What a pattern matches, told without a chart: nothing is remembered, no trial is under way and no
pattern has been tried before. A node is evaluated at a position of the text given what the
patterns match there; a pattern is evaluated by its tree. A look behind holds if some stretch of
the text that ends at the position is matched, one token after another.
-/

namespace Motif.Evaluation

open Chart (Reach)

/-- Submatches one after another, at most `tries` of them, of which `needed` are required. An empty
submatch ends the repetition and stands for as many as are required. -/
def greedy (once : Int → Option Reach) : Nat → Int → Int → Option Reach
  | 0, needed, position => if needed ≤ 0 then some ⟨position, []⟩ else none
  | tries + 1, needed, position =>
    match once position with
    | none => if needed ≤ 0 then some ⟨position, []⟩ else none
    | some reach =>
      if reach.stop = position then some ⟨position, []⟩
      else (greedy once tries (needed - 1) reach.stop).map fun rest =>
        ⟨rest.stop, reach.children ++ rest.children⟩

/-- The number of submatches for which a quantity leaves room in a text of `size` characters: if it
has no bound, one for each character and an empty one. A node is tried at least once. -/
def room (quantity : Quantity) (size : Nat) : Nat :=
  if quantity.most = Quantity.unlimited then size + 1 else (max quantity.most 1).toNat

/-- A node that does not look behind, given what one submatch of it is. -/
def quantified (size : Nat) (quantity : Quantity) (look : Look) (once : Int → Option Reach)
    (start : Int) : Option Reach :=
  if quantity.most = 0 then
    match once start with
    | none => some ⟨start, []⟩
    | some _ => none
  else
    match greedy once (room quantity size) quantity.least start with
    | none => none
    | some reach => some (if look = .ahead then ⟨start, []⟩ else reach)

/-- A node that looks behind and consumes nothing. -/
def lookedBehind (quantity : Quantity) (found : Prop) [Decidable found] (start : Int) :
    Option Reach :=
  if quantity.most = 0 then (if found then none else some ⟨start, []⟩)
  else (if found then some ⟨start, []⟩ else none)

/-- The positions of a text before a position, in order. -/
def positionsBefore (stop : Int) : List Int :=
  (List.range stop.toNat).map Int.ofNat

section Trees

/- The tokens of all patterns, by id and position. -/
variable (token : Int → Int → Option Token)

mutual

/-- The positions from which a node, whatever its quantity and look, matches up to `stop`. -/
def starts : Node → Int → List Int
  | .ref id _ _, stop =>
    (positionsBefore stop).filter fun start => (token id start).any fun found => found.stop = stop
  | .group alternatives _ _, stop => startsOfAlternatives alternatives stop

/-- The positions from which the nodes of a sequence match one after another up to `stop`. -/
def startsOfSequence : List Node → Int → List Int
  | [], stop => [stop]
  | node :: rest, stop => (startsOfSequence rest stop).flatMap fun middle => starts node middle

/-- The positions from which one of the alternatives matches up to `stop`. -/
def startsOfAlternatives : List (List Node) → Int → List Int
  | [], _ => []
  | sequence :: rest, stop => startsOfSequence sequence stop ++ startsOfAlternatives rest stop

end

/-- The submatch that a token is. -/
def ofToken (found : Token) : Reach :=
  ⟨found.stop, if found.length = 0 then [] else [found]⟩

variable (size : Nat)

mutual

/-- How far a node reaches from a position in a text of `size` characters. -/
def evalNode : Node → Int → Option Reach
  | .ref id quantity look, start =>
    if look = .behind then
      lookedBehind quantity (starts token (.ref id quantity look) start ≠ []) start
    else quantified size quantity look (fun position => (token id position).map ofToken) start
  | .group alternatives quantity look, start =>
    if look = .behind then
      lookedBehind quantity (startsOfAlternatives token alternatives start ≠ []) start
    else quantified size quantity look (fun position =>
      evalAlternatives alternatives position) start

/-- How far the nodes of a sequence reach one after another. -/
def evalSequence : List Node → Int → Option Reach
  | [], start => some ⟨start, []⟩
  | node :: rest, start =>
    match evalNode node start with
    | none => none
    | some reach =>
      match evalSequence rest reach.stop with
      | none => none
      | some tail => some ⟨tail.stop, reach.children ++ tail.children⟩

/-- How far the first alternative reaches that matches as a whole. -/
def evalAlternatives : List (List Node) → Int → Option Reach
  | [], _ => none
  | sequence :: rest, start =>
    match evalSequence sequence start with
    | some reach => some reach
    | none => evalAlternatives rest start

end

end Trees

/-- The token of a pattern that reaches from a position, with its children from the derived kind
on. -/
def tokenOf (text : Array Char) (pattern : Pattern) (start : Int) (reach : Reach) : Token where
  id := pattern.id
  start
  length := reach.stop - start
  text := Text.between text start reach.stop
  children := if Kind.derived ≤ pattern.kind then reach.children else []

/-- What a pattern matches at a position, given the tokens of all patterns. Outside the text, and so
at its end, nothing matches. -/
def evalWith (token : Int → Int → Option Token) (text : Array Char) (pattern : Pattern)
    (start : Int) : Option Token :=
  if 0 ≤ start ∧ start < text.size then
    match pattern.content with
    | .literal word =>
      if word ≠ "" ∧ word.toList <+: text.toList.drop start.toNat then
        some { id := pattern.id, start, length := word.length, text := word }
      else none
    | .tree root => (evalNode token text.size root start).map (tokenOf text pattern start)
  else none

end Motif.Evaluation

namespace Motif.Registry

/-- The tokens of the registered patterns in a text, by id and position. -/
def token (registry : Registry) (text : String) : Int → Int → Option Token :=
  registry.along (fun _ => none) fun token => Evaluation.evalWith token text.toList.toArray

/-- What a pattern matches at a position of a text by plain evaluation. -/
def evaluate (registry : Registry) (text : String) (pattern : Pattern) (start : Int) :
    Option Token :=
  Evaluation.evalWith (registry.token text) text.toList.toArray pattern start

end Motif.Registry
