import Motif.Text.Lines

/-!
# Paths

A path leads from a folder, the root or the current one, by names between slashes. A single dot
stays in a folder, and two dots lead to the folder around it.
-/

namespace Motif.CommandLine

/-- Where a file or folder is: the names on the way from the root. -/
abbrev Place := List String

/-- A written path. -/
structure Path where
  /-- It leads from the root. -/
  isAbsolute : Bool
  /-- What stands between the slashes, empty names left out. -/
  steps : List String
  /-- It ends in a slash, so that it can lead only to a folder. -/
  endsInSlash : Bool
deriving DecidableEq, Repr, Inhabited

namespace Path

/-- The parts of a text between slashes. -/
def parts (text : String) : List (List Char) :=
  Text.cutFields ['/'] text.length text.toList

/-- The path that a text writes. -/
def ofText (text : String) : Path where
  isAbsolute := text.toList.head? = some '/'
  steps := ((parts text).filter fun part => !part.isEmpty).map String.ofList
  endsInSlash := text.toList.getLast? = some '/'

/-- The steps to the end of a path; a slash there is a step within a folder. -/
def wholeSteps (path : Path) : List String :=
  if path.endsInSlash then path.steps ++ ["."] else path.steps

/-- The steps to the folder in which a path ends, and one within it. -/
def folderSteps (path : Path) : List String :=
  path.steps.dropLast ++ ["."]

/-- The place from which a path leads. -/
def origin (path : Path) (here : Place) : Place :=
  if path.isAbsolute then [] else here

/-- The place to which a step leads from a folder. -/
def stepFrom (place : Place) (step : String) : Place :=
  if step = "." then place
  else if step = ".." then place.dropLast
  else place ++ [step]

/-- The place to which a path leads, wherever folders are. -/
def target (path : Path) (here : Place) : Place :=
  path.steps.foldl stepFrom (path.origin here)

/-- The places through which a path leads, its end left out. -/
def passed (path : Path) (here : Place) : List Place :=
  (List.range path.steps.length).map fun count =>
    (path.steps.take count).foldl stepFrom (path.origin here)

end Path

end Motif.CommandLine
