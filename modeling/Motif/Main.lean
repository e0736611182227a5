import Motif.CommandLine.Program

/-!
# Main

The outer layer of the program: it fetches what a command reads, runs the command, and puts down
what the command leaves.
-/

namespace Motif.Main

open Motif.CommandLine

/-- The files at the given paths that can be read, by their places. -/
def fetch (here : Place) (paths : List String) : IO (List (Place × Entry)) := do
  let mut entries := []
  for path in paths do
    let content ← try some <$> IO.FS.readFile path catch _ => pure none
    if let some content := content then
      entries := entries ++ [((Path.ofText path).target here, .file content)]
  return entries

/-- The paths that the arguments ask to read, and those they ask to write. -/
def pathsOf (arguments : List String) : List String × List String :=
  match Invocation.ofArguments arguments with
  | .ok invocation => (invocation.reads, invocation.writes)
  | .error _ => ([], [])

/-- A current folder from which the paths do not lead above the root. The folders around it are
known by no other names than two dots. -/
def currentFolder (paths : List String) : Place :=
  paths.flatMap fun path => (Path.ofText path).steps.filter (· = "..")

end Motif.Main

open Motif.CommandLine in
/-- Runs the program. Whether a folder is there shows when a file is written into it. -/
def main (arguments : List String) : IO UInt32 := do
  let (reads, writes) := Motif.Main.pathsOf arguments
  let here := Motif.Main.currentFolder (reads ++ writes)
  let files ← Motif.Main.fetch here reads
  let input ← if reads.contains Desk.standard then (← IO.getStdin).readToEnd else pure ""
  let passed := (reads ++ writes).flatMap fun path => (Path.ofText path).passed here
  let entries := files ++ (here :: passed).map fun place => (place, Entry.folder)
  let (result, desk) := Motif.CommandLine.run arguments { entries, here, input }
  (← IO.getStdout).putStr desk.output
  for path in writes do
    let place := (Path.ofText path).target here
    match desk.entries.lookup place with
    | some (.file content) =>
      if entries.lookup place ≠ some (.file content) then IO.FS.writeFile path content
    | _ => pure ()
  match result with
  | .exit code => return code.toUInt32
  | .failure fault =>
    (← IO.getStderr).putStrLn fault.message
    return 1
