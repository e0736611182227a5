import Motif.Fault
import Motif.Json.Basic
import Motif.Kind

/-!
# Kinds in JSON

A kind is given by its name or by its rank. Of the truth values, true counts as the rank one, and
false as a rank that no kind has.
-/

namespace Motif

/-- The kind that a JSON value names, by its label or by its rank. -/
def Kind.ofJson : Json → Except Fault Kind
  | .string name =>
    match Kind.ofName? name with
    | some kind => .ok kind
    | none => .error (.unknownKind name)
  | .int rank =>
    match Kind.ofRank? rank with
    | some kind => .ok kind
    | none => .error (.noSuchRank (toString rank))
  | .bool true => .ok .literal
  | .bool false => .error (.noSuchRank "False")
  | _ => .error .noText

end Motif
