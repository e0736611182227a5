import Motif.Text.Digit

/-!
# Flags

The arguments of a command are flags, some of which take a value. A long flag may be shortened as
long as only one flag begins so, a value may be joined with an equals sign, and short flags may be
written together. An argument with a leading dash is a value only if it is a negative number or
holds a space; after two dashes alone nothing is a flag. Two dashes that are joined to a flag set it
to nothing.
-/

namespace Motif.CommandLine

/-- Why there is no command to be run. -/
inductive Ending where
  /-- The arguments ask only for this output. -/
  | answered (output : String)
  /-- The arguments make no sense. -/
  | misused
deriving DecidableEq, Repr

/-- What a flag does. -/
inductive Effect where
  /-- Takes a value that satisfies a check. -/
  | value (accepts : String → Bool)
  /-- Takes no value. -/
  | switch
  /-- Ends the reading with an output. -/
  | answer (output : String)
deriving Inhabited

/-- A flag with all its spellings; the key is what it is called in the result. -/
structure Flag where
  key : String
  spellings : List String
  effect : Effect
deriving Inhabited

/-- An argument in its role. -/
inductive Piece where
  /-- A value, or an argument in excess. -/
  | plain (text : String)
  /-- Two dashes alone. -/
  | dashes
  /-- A spelling of a flag, with a value that is joined to it. -/
  | flag (flag : Flag) (spelling : String) (joined : Option String)
  /-- A flag that is not known. -/
  | unknown
deriving Inhabited

/-- One line feed, or nothing. -/
def isLineEnd (cs : List Char) : Bool :=
  cs.isEmpty || cs = ['\n']

/-- A negative number: a dash and digits, with at most one point that digits follow. It may stand
at the end of a line. -/
def isNegativeNumber (cs : List Char) : Bool :=
  match cs with
  | '-' :: rest =>
    match rest.dropWhile Text.isDigit with
    | '.' :: decimals =>
      !(decimals.takeWhile Text.isDigit).isEmpty && isLineEnd (decimals.dropWhile Text.isDigit)
    | others => !(rest.takeWhile Text.isDigit).isEmpty && isLineEnd others
  | _ => false

/-- The spellings of flags that begin with a text, with their flags. -/
def beginningWith (flags : List Flag) (start : List Char) : List (Flag × String) :=
  flags.flatMap fun flag =>
    (flag.spellings.filter fun spelling => start.isPrefixOf spelling.toList).map (flag, ·)

/-- The flag of a spelling. -/
def spelled? (flags : List Flag) (spelling : String) : Option Flag :=
  flags.find? fun flag => flag.spellings.contains spelling

/-- The parts of an argument before and after its first equals sign. -/
def splitJoined (cs : List Char) : List Char × Option String :=
  match cs.dropWhile (· ≠ '=') with
  | '=' :: value => (cs.takeWhile (· ≠ '='), some (String.ofList value))
  | _ => (cs, none)

/-- The flags that a shortened argument may mean, each with its spelling and a joined value: a
long flag that begins so, or a short one with more characters behind it. -/
def candidates (flags : List Flag) (cs : List Char) : List (Flag × String × Option String) :=
  match cs with
  | '-' :: '-' :: _ =>
    let (start, joined) := splitJoined cs
    (beginningWith flags start).map fun found => (found.1, found.2, joined)
  | '-' :: c :: rest =>
    let short := String.ofList ['-', c]
    let clustered := (spelled? flags short).map fun flag =>
      (flag, short, some (String.ofList rest))
    clustered.toList ++ (beginningWith flags cs).map fun found => (found.1, found.2, none)
  | _ => []

/-- An argument that spells a flag in full, perhaps with a joined value. -/
def exactPiece? (flags : List Flag) (argument : String) : Option Piece :=
  match spelled? flags argument with
  | some flag => some (.flag flag argument none)
  | none =>
    match splitJoined argument.toList with
    | (start, some value) =>
      (spelled? flags (String.ofList start)).map fun flag =>
        .flag flag (String.ofList start) (some value)
    | (_, none) => none

/-- The role of an argument before two dashes alone. -/
def classify (flags : List Flag) (argument : String) : Except Ending Piece :=
  let cs := argument.toList
  if cs.head? ≠ some '-' then .ok (.plain argument)
  else
    match exactPiece? flags argument with
    | some piece => .ok piece
    | none =>
      if cs = ['-'] then .ok (.plain argument)
      else
        match candidates flags cs with
        | [(flag, spelling, joined)] => .ok (.flag flag spelling joined)
        | _ :: _ :: _ => .error .misused
        | [] =>
          if isNegativeNumber cs || cs.contains ' ' then .ok (.plain argument) else .ok .unknown

/-- The roles of all arguments. -/
def classifyAll (flags : List Flag) : List String → Except Ending (List Piece)
  | [] => .ok []
  | argument :: rest =>
    if argument = "--" then .ok (.dashes :: rest.map .plain)
    else do
      let piece ← classify flags argument
      return piece :: (← classifyAll flags rest)

/-- What the flags read so far have set, the last one first. A flag may have been set to nothing. -/
structure Readings where
  set : List (String × Option String) := []
  /-- There were arguments that nothing asks for. -/
  excess : Bool := false
deriving Inhabited

/-- A key has been set. -/
def Readings.isSet (readings : Readings) (key : String) : Bool :=
  (readings.set.lookup key).isSome

/-- The last value of a key, if it is not nothing. -/
def Readings.value? (readings : Readings) (key : String) : Option String :=
  (readings.set.lookup key).join

/-- All values of a key in order. -/
def Readings.values (readings : Readings) (key : String) : List (Option String) :=
  ((readings.set.filter fun entry => entry.1 = key).map Prod.snd).reverse

/-- The value that an argument gives: two dashes alone are nothing. -/
def givenValue (argument : String) : Option String :=
  if argument = "--" then none else some argument

/-- A flag applied to a value, which excludes other keys of a group. -/
def Readings.apply (readings : Readings) (group : List String) (flag : Flag)
    (value : Option String) : Except Ending Readings :=
  match flag.effect with
  | .answer output => .error (.answered output)
  | .switch => .ok { readings with set := (flag.key, value) :: readings.set }
  | .value accepts =>
    let excluded := group.contains flag.key &&
      group.any fun key => key ≠ flag.key && readings.isSet key
    if value.all accepts && !excluded then
      .ok { readings with set := (flag.key, value) :: readings.set }
    else .error .misused

/-- A flag takes a value. -/
def Flag.takesValue (flag : Flag) : Bool :=
  match flag.effect with
  | .value _ => true
  | _ => false

/-- The further short flags that are written together with one. -/
def cluster (flags : List Flag) (cs : List Char) : Except Ending (List Flag) :=
  cs.mapM fun c =>
    match spelled? flags (String.ofList ['-', c]) with
    | some flag => if flag.takesValue then .error .misused else .ok flag
    | none => .error .misused

/-- Reads the arguments of a command that has nothing but flags. -/
def readPieces (flags : List Flag) (group : List String) : Readings → List Piece →
    Except Ending Readings
  | readings, [] => .ok readings
  | readings, .flag flag spelling joined :: rest =>
    match flag.takesValue, joined, rest with
    | true, some value, rest => do
      readPieces flags group (← readings.apply group flag (givenValue value)) rest
    | true, none, .plain value :: rest => do
      readPieces flags group (← readings.apply group flag (givenValue value)) rest
    | true, none, _ => .error .misused
    | false, none, rest => do
      readPieces flags group (← readings.apply group flag none) rest
    | false, some more, rest =>
      if more.isEmpty || "--".toList.isPrefixOf spelling.toList then .error .misused
      else do
        let others ← cluster flags more.toList
        let readings ← (flag :: others).foldlM (fun readings flag => readings.apply group flag none)
          readings
        readPieces flags group readings rest
  | readings, _ :: rest => readPieces flags group { readings with excess := true } rest

/-- The flags of a command, some of which must be set; of a group exactly one must be. -/
structure Command where
  name : String
  flags : List Flag
  required : List String := []
  group : List String := []
deriving Inhabited

/-- Reads the arguments of a command. -/
def Command.read (command : Command) (arguments : List String) : Except Ending Readings := do
  let pieces ← classifyAll command.flags arguments
  let readings ← readPieces command.flags command.group {} pieces
  if command.required.all readings.isSet &&
      (command.group.isEmpty || command.group.any readings.isSet) then
    return readings
  else .error .misused

/-- Reads arguments up to the name of a command, and then those of the command. -/
def readCommand (flags : List Flag) (commands : List Command) (readings : Readings) :
    List Piece → List String → Except Ending (String × Readings)
  | .plain name :: _, _ :: arguments =>
    match commands.find? fun command => command.name = name with
    | none => .error .misused
    | some command => do
      let result ← command.read arguments
      if readings.excess || result.excess then .error .misused else return (name, result)
  | .flag flag spelling joined :: rest, _ :: arguments => do
    let readings ← readPieces flags [] readings [.flag flag spelling joined]
    readCommand flags commands readings rest arguments
  | .unknown :: rest, _ :: arguments =>
    readCommand flags commands { readings with excess := true } rest arguments
  | _, _ => .error .misused

/-- Reads the arguments of a program with several commands. -/
def readArguments (flags : List Flag) (commands : List Command) (arguments : List String) :
    Except Ending (String × Readings) := do
  let pieces ← classifyAll flags arguments
  readCommand flags commands {} pieces arguments

end Motif.CommandLine
