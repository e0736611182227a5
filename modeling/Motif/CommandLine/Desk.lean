import Motif.CommandLine.Path
import Motif.Fault

/-!
# The desk of a command

A command reads files and its standard input, and it writes files and its standard output. Files
are reached by paths through folders; the path of a single dash stands for the standard ones.
-/

namespace Motif.CommandLine

/-- What can be at a place. -/
inductive Entry where
  | file (content : String)
  | folder
  /-- A file that is always empty, whatever is written to it. -/
  | sink
deriving DecidableEq, Repr, Inhabited

/-- What a command finds, and what it leaves. -/
structure Desk where
  /-- The files and folders by place. -/
  entries : List (Place × Entry) := []
  /-- The current folder. -/
  here : Place := []
  /-- What has not been read of the standard input. -/
  input : String := ""
  /-- What has been written to the standard output. -/
  output : String := ""
deriving DecidableEq, Repr, Inhabited

namespace Desk

/-- The folders around a place. -/
def foldersAround (place : Place) : List (Place × Entry) :=
  (List.range place.length).map fun count => (place.take count, .folder)

/-- A desk with a current folder of its own that holds the files given by relative paths. -/
def holding (files : List (String × String)) (input : String) : Desk :=
  let here : Place := ["tmp", "desk"]
  let placed := files.map fun file => ((Path.ofText file.1).target here, Entry.file file.2)
  { entries := placed ++ placed.flatMap (fun entry => foldersAround entry.1) ++
      foldersAround here ++ [(here, .folder), (["dev"], .folder), (["dev", "null"], .sink)]
    here, input }

/-- The files in the current folder, by relative path. -/
def files (desk : Desk) : List (String × String) :=
  desk.entries.filterMap fun entry =>
    match entry.2 with
    | .file content =>
      if desk.here.isPrefixOf entry.1 then
        some ("/".intercalate (entry.1.drop desk.here.length), content)
      else none
    | _ => none

/-- What is at a place; the root is always a folder. -/
def entry? (desk : Desk) (place : Place) : Option Entry :=
  if place.isEmpty then some .folder else desk.entries.lookup place

/-- An operation at a desk. What has been written stays written also if it fails. -/
abbrev Action (α : Type) := ExceptT Fault (StateM Desk) α

/-- The path of the standard input and output. -/
def standard : String := "-"

/-- The greatest length of a name, in bytes. -/
def longestName : Nat := 255

/-- The greatest length of a path, in bytes. -/
def longestPath : Nat := 4095

/-- Walks from a place, which has to be a folder if there is a further step. -/
def walk (desk : Desk) (written : String) : Place → List String → Except Fault Place
  | place, [] => .ok place
  | place, step :: rest =>
    match desk.entry? place with
    | none => .error (.noFile written)
    | some .folder =>
      if longestName < step.utf8ByteSize then .error (.pathTooLong written)
      else desk.walk written (Path.stepFrom place step) rest
    | some _ => .error (.notAFolder written)

/-- The place to which steps from the origin of a path lead, through folders that are there. -/
def locate (desk : Desk) (written : String) (steps : List String) : Except Fault Place :=
  if written.toList.contains '\x00' then .error .zeroInPath
  else if longestPath < written.utf8ByteSize then .error (.pathTooLong written)
  else if written.isEmpty then .error (.noFile written)
  else desk.walk written ((Path.ofText written).origin desk.here) steps

/-- Reads the file of a path; every line end counts as a line feed. -/
def readFile (written : String) : Action String := do
  let desk ← getThe Desk
  let place ← desk.locate written (Path.ofText written).wholeSteps
  match desk.entry? place with
  | some (.file content) => return String.ofList (Text.unifyLineEnds content.toList)
  | some .folder => throw (.notAFile written)
  | some .sink => return ""
  | none => throw (.noFile written)

/-- Reads a file, or the rest of the standard input as it is. -/
def read (written : String) : Action String := do
  if written = standard then
    let text := (← getThe Desk).input
    modify fun desk => { desk with input := "" }
    return text
  else readFile written

/-- Puts a text on the standard output. -/
def print (text : String) : Action Unit :=
  modify fun desk => { desk with output := desk.output ++ text }

/-- The entries with the content of a file set. -/
def setFile (place : Place) (content : String) : List (Place × Entry) → List (Place × Entry)
  | [] => [(place, .file content)]
  | entry :: rest =>
    if entry.1 = place then (place, .file content) :: rest
    else entry :: setFile place content rest

/-- Writes the file of a path, in a folder that is there. A path with a slash at its end is none of
a file. -/
def writeFile (written content : String) : Action Unit := do
  let desk ← getThe Desk
  let path := Path.ofText written
  if path.endsInSlash then
    let _ ← desk.locate written path.folderSteps
    throw (.notAFile written)
  let place ← desk.locate written path.steps
  match desk.entry? place with
  | some .folder => throw (.notAFile written)
  | some .sink => return
  | _ => set { desk with entries := setFile place content desk.entries }

/-- The text with a line feed at its end. -/
def endLine (text : String) : String :=
  if text.toList.getLast? = some '\n' then text else text ++ "\n"

/-- Writes a text. On the standard output it ends a line. -/
def write (text written : String) : Action Unit :=
  if written = standard then print (endLine text) else writeFile written text

end Desk

end Motif.CommandLine
