import Motif.Registry.Compile

/-!
# The basic patterns

The printable ASCII characters are the literals on which patterns are built, with classes for
letters and digits above them. The alphabet of a registry is what its literals spell.
-/

namespace Motif.Registry

/-- The name of the literal of a character. Characters with a meaning of their own in tables or
in pattern text are named by words. -/
def literalName (c : Char) : String :=
  if c = ' ' then "Space"
  else if c = '|' then "Pipe"
  else if c = '\'' then "Apostrophe"
  else String.ofList [c]

/-- The characters from one code point to another. -/
def charRange (first last : Nat) : List Char :=
  (List.range' first (last + 1 - first)).map Char.ofNat

/-- The printable ASCII characters. -/
def printableAscii : List Char :=
  charRange 32 126

/-- A text of one character. -/
def single (c : Char) : String :=
  String.ofList [c]

/-- The capital letters. -/
def capitals : List Char :=
  charRange 65 90

/-- The basic classes in the order of registration, each with its text: every letter in both
cases, then capitals, small letters, letters and digits. -/
def basicClasses : List (String × String) :=
  (capitals.map fun c => (String.ofList [c, c.toLower], single c ++ " | " ++ single c.toLower)) ++
    [("Uppercase", " | ".intercalate (capitals.map single)),
     ("Lowercase", " | ".intercalate (capitals.map fun c => single c.toLower)),
     ("Letter", "Uppercase | Lowercase"),
     ("Digit", " | ".intercalate ((charRange 48 57).map fun c => Text.quote (single c)))]

/-- Registers the literals of the printable ASCII characters and the basic classes. -/
def registerBasics : Action Unit := do
  printableAscii.forM fun c => discard (addLiteral (single c) (literalName c))
  basicClasses.forM fun entry => discard (register entry.1 .basics entry.2)

/-- The characters that have a literal pattern of their own. -/
def alphabet (registry : Registry) : List Char :=
  registry.literals.filterMap fun entry =>
    match entry.1.toList with
    | [c] => some c
    | _ => none

end Motif.Registry
