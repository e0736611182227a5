import Motif.Node.Basic

/-!
# Limits of looking behind

A group that looks behind is matched from its end towards its start, where neither a quantifier
nor another look has a meaning. So every node below such a group must be plain.
-/

namespace Motif

/-- What a node inside a look-behind must not carry. -/
inductive LookBehindFault where
  | lookBehind
  | lookAhead
  | quantifier
  | customQuantifier
deriving DecidableEq, Repr

/-- The fault in words. -/
def LookBehindFault.message : LookBehindFault → String
  | lookBehind => "Found look-behind within look-behind"
  | lookAhead => "Found look-ahead within look-behind"
  | quantifier => "Found quantifier within look-behind"
  | customQuantifier => "Found custom quantifier within look-behind"

namespace Node

/-- What a node itself carries that may not stand inside a look-behind. -/
def decorationFault? (quantity : Quantity) (look : Look) : Option LookBehindFault :=
  match look with
  | .behind => some .lookBehind
  | .ahead => some .lookAhead
  | .here =>
    if quantity.least ≠ 1 then some .quantifier
    else if quantity.most ≠ 1 then some .customQuantifier
    else none

mutual

/-- The first reason why a node may not stand inside a look-behind. -/
def insideFault? : Node → Option LookBehindFault
  | ref _ quantity look => decorationFault? quantity look
  | group alternatives quantity look =>
    (decorationFault? quantity look).or (insideFaultOfAlternatives? alternatives)

/-- The first such reason in a sequence. -/
def insideFaultOfSequence? : List Node → Option LookBehindFault
  | [] => none
  | node :: rest => (insideFault? node).or (insideFaultOfSequence? rest)

/-- The first such reason in a list of alternatives. -/
def insideFaultOfAlternatives? : List (List Node) → Option LookBehindFault
  | [] => none
  | sequence :: rest => (insideFaultOfSequence? sequence).or (insideFaultOfAlternatives? rest)

end

/-- The first fault of what stands inside a node, if that node is a group that looks behind. -/
def behindFault? : Node → Option LookBehindFault
  | group alternatives _ .behind => insideFaultOfAlternatives? alternatives
  | _ => none

mutual

/-- The first fault inside a look-behind anywhere below a node. -/
def lookBehindFault? : Node → Option LookBehindFault
  | ref _ _ _ => none
  | group alternatives _ _ => lookBehindFaultOfAlternatives? alternatives

/-- The first such fault in a sequence, where each node's own content comes first. -/
def lookBehindFaultOfSequence? : List Node → Option LookBehindFault
  | [] => none
  | node :: rest =>
    (behindFault? node).or ((lookBehindFault? node).or (lookBehindFaultOfSequence? rest))

/-- The first such fault in a list of alternatives. -/
def lookBehindFaultOfAlternatives? : List (List Node) → Option LookBehindFault
  | [] => none
  | sequence :: rest =>
    (lookBehindFaultOfSequence? sequence).or (lookBehindFaultOfAlternatives? rest)

end

end Node

end Motif
