import Motif.Double.Basic

/-!
# JSON values

A value of the JSON data format. The members of an object stand in the order in which they were
written, each key once. Numbers that are not written as integers are of double precision.
-/

namespace Motif

/-- A JSON value. -/
inductive Json where
  | null
  | bool (value : Bool)
  | int (value : Int)
  | real (value : Double)
  | string (text : String)
  | array (items : List Json)
  | object (members : List (String × Json))
deriving Repr, Inhabited

namespace Json

/-- The members with a key set to a value; a key that is there keeps its place. -/
def setMember (key : String) (value : Json) : List (String × Json) → List (String × Json)
  | [] => [(key, value)]
  | member :: rest =>
    if member.1 = key then (key, value) :: rest else member :: setMember key value rest

/-- The member of a key, if the value is an object that has one. -/
def member? (json : Json) (key : String) : Option Json :=
  match json with
  | object members => members.lookup key
  | _ => none

end Json

end Motif
