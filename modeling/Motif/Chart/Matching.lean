import Motif.Chart.Basic
import Motif.Registry.Basic

/-!
# Matching

A pattern is matched at a position of a chart. Matching is greedy and takes the first alternative
that matches as a whole; it never goes back into a part that has matched. Every outcome is
remembered in the chart. A pattern that is tried at a position where that trial is under way
fails, and so does everything below a depth for which there is no room.
-/

namespace Motif

/-- The patterns that references lead to: all that matching needs to know of a registry. -/
structure Grammar where
  /-- The pattern of an id. -/
  find? : Int → Option Pattern

/-- The pattern of an id that has to be there. -/
def Grammar.get (grammar : Grammar) (id : Int) : Except Fault Pattern :=
  match grammar.find? id with
  | some pattern => .ok pattern
  | none => .error (.missing id)

/-- The registered patterns as a grammar. -/
def Registry.grammar (registry : Registry) : Grammar where
  find? := registry.byId?

namespace Chart

/-- How far a node reaches, and the tokens it is made of. -/
structure Reach where
  stop : Int
  children : List Token
deriving Inhabited

/-- Successive submatches of one node. -/
structure Run where
  /-- The number of submatches. -/
  count : Nat
  /-- The last submatch was empty; so it stands for any number of further ones. -/
  stalled : Bool
  stop : Int
  children : List Token
deriving Inhabited

/-- The text has these characters at a position. -/
def spells (text : Array Char) (position : Nat) : List Char → Bool
  | [] => true
  | c :: rest => text[position]? = some c && spells text (position + 1) rest

/-- The position lies inside the text. -/
def covers (chart : Chart) (position : Int) : Bool :=
  0 ≤ position && position < chart.size

/-- Submatches one after another, at most `tries` of them and none after an empty one. -/
def repeatMatch (once : Int → Action (Option Reach)) : Nat → Int → Action Run
  | 0, position => return ⟨0, false, position, []⟩
  | tries + 1, position => do
    match ← once position with
    | none => return ⟨0, false, position, []⟩
    | some reach =>
      if reach.stop = position then return ⟨1, true, position, []⟩
      let run ← repeatMatch once tries reach.stop
      return { run with count := run.count + 1, children := reach.children ++ run.children }

/-- The nodes of a sequence one after another. -/
def matchSequence (node : Node → Int → Action (Option Reach)) :
    List Node → Int → Action (Option Reach)
  | [], position => return some ⟨position, []⟩
  | first :: rest, position => do
    match ← node first position with
    | none => return none
    | some reach =>
      match ← matchSequence node rest reach.stop with
      | none => return none
      | some tail => return some ⟨tail.stop, reach.children ++ tail.children⟩

/-- The first alternative that matches. -/
def matchAlternatives (node : Node → Int → Action (Option Reach)) :
    List (List Node) → Int → Action (Option Reach)
  | [], _ => return none
  | sequence :: rest, position => do
    match ← matchSequence node sequence position with
    | some reach => return some reach
    | none => matchAlternatives node rest position

/-- The nodes of a reversed sequence one before another, the first ending at a position; the
answer is the start of the match. -/
def behindSequence (node : Node → Int → Action (Option Int)) :
    List Node → Int → Action (Option Int)
  | [], last => return some (last + 1)
  | first :: rest, last => do
    match ← node first last with
    | none => return none
    | some start => behindSequence node rest (start - 1)

/-- The first alternative that matches with its end at a position. -/
def behindAlternatives (node : Node → Int → Action (Option Int)) :
    List (List Node) → Int → Action (Option Int)
  | [], _ => return none
  | sequence :: rest, last => do
    match ← behindSequence node sequence.reverse last with
    | some start => return some start
    | none => behindAlternatives node rest last

/-- Tries a pattern at `count` positions from `position` on, in order. -/
def scan (attempt : Int → Action (Option Token)) (id : Int) : Nat → Int → Action Unit
  | 0, _ => return
  | count + 1, position => do
    let _ ← attempt position
    modify fun chart => chart.markScanned id position
    scan attempt id count (position + 1)

/-- The start of a match of a node whose last character is at a position. A pattern is tried at
every position up to there first, so that all its tokens are known. -/
def behindStep (grammar : Grammar) (pattern : Pattern → Int → Action (Option Token))
    (node : Node → Int → Action (Option Int)) (target : Node) (last : Int) :
    Action (Option Int) := do
  if last < 0 then return none
  match target with
  | .ref id _ _ => do
    let found ← grammar.get id
    let start := (← getThe Chart).scannedUntil found.id
    scan (pattern found) found.id (last + 1 - start).toNat start
    return ((← getThe Chart).tail? last found.id).map Token.start
  | .group alternatives _ _ => behindAlternatives node alternatives last

/-- One submatch of a node, whatever its quantity and look. -/
def onceStep (grammar : Grammar) (pattern : Pattern → Int → Action (Option Token))
    (node : Node → Int → Action (Option Reach)) (target : Node) (position : Int) :
    Action (Option Reach) := do
  match target with
  | .ref id _ _ =>
    let found ← grammar.get id
    match ← pattern found position with
    | none => return none
    | some token => return some ⟨token.stop, if token.length ≠ 0 then [token] else []⟩
  | .group alternatives _ _ => matchAlternatives node alternatives position

/-- The greatest number of submatches that a quantity can take in a text of `size` characters. A
node is tried at least once. -/
def triesOf (quantity : Quantity) (size : Nat) : Nat :=
  if quantity.isUnlimited then size + 1 else (max quantity.most 1).toNat

/-- What a run of submatches from `start` means for a node. -/
def outcomeOf (quantity : Quantity) (look : Look) (start : Int) (run : Run) : Option Reach :=
  if quantity.isNegative then
    if run.count = 0 then some ⟨start, []⟩ else none
  else if !run.stalled && (run.count : Int) < quantity.least then none
  else if look = .ahead then some ⟨start, []⟩
  else some ⟨run.stop, run.children⟩

/-- A node with its quantity and look. -/
def nodeStep (behind : Node → Int → Action (Option Int))
    (once : Node → Int → Action (Option Reach)) (node : Node) (start : Int) :
    Action (Option Reach) := do
  if node.look = .behind then
    let found := (← behind node (start - 1)).isSome
    return if found ≠ node.isNegative then some ⟨start, []⟩ else none
  else
    let size := (← getThe Chart).text.size
    let run ← repeatMatch (once node) (triesOf node.quantity size) start
    return outcomeOf node.quantity node.look start run

/-- The token of a pattern at a position inside the text, not looking at what is remembered. The
children are kept from the derived kind on. -/
def build (node : Node → Int → Action (Option Reach)) (pattern : Pattern) (start : Int) :
    Action (Option Token) := do
  match pattern.content with
  | .literal text =>
    let found := !text.isEmpty && spells (← getThe Chart).text start.toNat text.toList
    return if found then some { id := pattern.id, start, length := text.length, text } else none
  | .tree root =>
    match ← node root start with
    | none => return none
    | some reach =>
      return some {
        id := pattern.id
        start
        length := reach.stop - start
        text := Text.between (← getThe Chart).text start reach.stop
        children := if Kind.derived ≤ pattern.kind then reach.children else [] }

/-- Runs a trial and marks it as ended, also if it fails. -/
def guarded {α : Type} (position id : Int) (trial : Action α) : Action α :=
  ExceptT.mk do
    let result ← trial.run
    modify fun chart => chart.leave position id
    return result

/-- The remembered outcome of a trial inside the text, or else that of `attempt`. -/
def recalled (pattern : Pattern) (start : Int) (attempt : Action (Option Token)) :
    Action (Option Token) := do
  if !(← getThe Chart).covers start then return none
  match (← getThe Chart).outcome? start pattern.id with
  | some outcome => return outcome
  | none => attempt

/-- Tries a pattern at a position, unless that trial is under way, and remembers the outcome. -/
def attempt (node : Node → Int → Action (Option Reach)) (pattern : Pattern) (start : Int) :
    Action (Option Token) := do
  if !(← enter start pattern.id) then return none
  let outcome ← guarded start pattern.id (build node pattern start)
  remember start pattern.id outcome
  return outcome

mutual

/-- Matches a pattern at a position with room for so many levels below. -/
def matchPattern (grammar : Grammar) : Nat → Pattern → Int → Action (Option Token)
  | 0, pattern, start => recalled pattern start (return none)
  | room + 1, pattern, start =>
    recalled pattern start (attempt (matchNode grammar room) pattern start)

/-- Matches a node at a position. -/
def matchNode (grammar : Grammar) : Nat → Node → Int → Action (Option Reach)
  | 0, _, _ => return none
  | room + 1, node, start =>
    nodeStep (behindStep grammar (matchPattern grammar room) (matchBehind grammar room))
      (onceStep grammar (matchPattern grammar room) (matchNode grammar room)) node start

/-- Matches a node with its last character at a position. -/
def matchBehind (grammar : Grammar) : Nat → Node → Int → Action (Option Int)
  | 0, _, _ => return none
  | room + 1, node, last =>
    behindStep grammar (matchPattern grammar room) (matchBehind grammar room) node last

end

/-- The depth that is allowed unless another one is asked for. -/
def defaultDepth : Int := 256

/-- A depth that stands for none: no text is long enough for it to be reached. -/
def unreachedDepth : Int := 1000000000000000000

/-- The room for matching down to a depth, the top level counted. -/
def roomFor (maxDepth : Int) : Nat :=
  (maxDepth + 1).toNat

/-- Matches a pattern at a position. -/
def tryPattern (grammar : Grammar) (pattern : Pattern) (start : Int)
    (maxDepth : Int := defaultDepth) : Action (Option Token) :=
  matchPattern grammar (roomFor maxDepth) pattern start

/-- Matches a node at a position; the token belongs to no pattern. -/
def tryNode (grammar : Grammar) (node : Node) (start : Int) (maxDepth : Int := defaultDepth) :
    Action (Option Token) := do
  match ← matchNode grammar (roomFor maxDepth) node start with
  | none => return none
  | some reach =>
    return some {
      id := -1
      start
      length := reach.stop - start
      text := Text.between (← getThe Chart).text start reach.stop
      children := reach.children }

/-- Tries patterns at a position in order. -/
def tryAll (grammar : Grammar) (room : Nat) (position : Int) (patterns : List Pattern) :
    Action Unit :=
  patterns.forM fun pattern => do
    let _ ← matchPattern grammar room pattern position
    modify fun chart => chart.markScanned pattern.id position

/-- Tries patterns at every position of the text from left to right. -/
def fill (grammar : Grammar) (patterns : List Pattern) (maxDepth : Int := defaultDepth) :
    Action Unit := do
  let size := (← getThe Chart).text.size
  (List.range size).forM fun position =>
    tryAll grammar (roomFor maxDepth) position patterns

end Chart

namespace Registry

/-- The chart of a text with every registered pattern tried at every position. -/
def parse (registry : Registry) (text : String) (maxDepth : Int := Chart.defaultDepth) :
    Except Fault Chart :=
  match (Chart.fill registry.grammar registry.patterns maxDepth).run (Chart.ofText text) with
  | (.ok _, chart) => .ok chart
  | (.error fault, _) => .error fault

/-- Matches a pattern in a text of its own. -/
def matchText (registry : Registry) (pattern : Pattern) (text : String) (start : Int := 0)
    (maxDepth : Int := Chart.defaultDepth) : Except Fault (Option Token) :=
  ((Chart.tryPattern registry.grammar pattern start maxDepth).run (Chart.ofText text)).1

end Registry

end Motif
