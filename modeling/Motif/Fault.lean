import Motif.Node.LookBehind
import Motif.Text.Integer
import Motif.Text.Shown

/-!
# Faults

Everything that can go wrong, as a cause and not as a text; `Fault.message` gives the words. A
fault in pattern text also says where it is, which lexeme is to blame and which pattern was being
compiled, as far as that is known.
-/

namespace Motif

/-- Why a pattern text is refused. Marks, quantifiers and other lexemes are given as written. -/
inductive PatternFault.Cause where
  /-- No lexeme starts with this text. -/
  | unreadable (text : String)
  | emptyPattern
  /-- The pattern ends before this lexeme. -/
  | trailing (lexeme : String)
  /-- A look has no atom because this lexeme follows. -/
  | lookBefore (mark lexeme : String)
  /-- A look has no atom because the group ends. -/
  | danglingLook (mark : String)
  | emptySequenceBefore (lexeme : String)
  | emptySequenceAtEnd
  | unclosedGroup
  | quantifierAfterLook (mark quantifier : String)
  | quantifierAfterAssertion (quantifier : String)
  | quantifierAtStart (quantifier : String)
  | quantifierAfter (quantifier previous : String)
  | reversedRange (range : String)
  | quantifiedLookBehind (quantifier : String)
  | unknownId (id : Int)
  | unknownName (name : String)
  | lookBehindContent (fault : LookBehindFault)
  | nameTaken
deriving Repr

/-- The families of faults in patterns. -/
inductive PatternFault.Family where
  | malformed
  | unknownReference
  | quantifier
  | lookBehind
  | duplicateName
deriving DecidableEq, Repr

namespace PatternFault.Cause

/-- The family a cause belongs to. -/
def family : Cause → Family
  | quantifierAfterLook .. | quantifierAfterAssertion _ | quantifierAtStart _
  | quantifierAfter .. | reversedRange _ => .quantifier
  | quantifiedLookBehind _ | lookBehindContent _ => .lookBehind
  | unknownId _ | unknownName _ => .unknownReference
  | nameTaken => .duplicateName
  | _ => .malformed

/-- The cause in words. -/
def message : Cause → String
  | unreadable text => "Syntax error in pattern near " ++ Text.shown text
  | emptyPattern => "Empty pattern"
  | trailing lexeme => "Expecting end of pattern around '" ++ lexeme ++ "'"
  | lookBefore mark lexeme => "Found " ++ mark ++ " before " ++ lexeme
  | danglingLook mark => "Found dangling " ++ mark ++ " at end of group"
  | emptySequenceBefore lexeme => "Found empty sequence before '" ++ lexeme ++ "'"
  | emptySequenceAtEnd => "Found empty sequence at end of pattern"
  | unclosedGroup => "Unexpected end of pattern"
  | quantifierAfterLook mark quantifier => "Found " ++ mark ++ " before " ++ quantifier
  | quantifierAfterAssertion quantifier =>
    "Found '" ++ quantifier ++ "' quantifier after '^' assertion"
  | quantifierAtStart quantifier => "Found '" ++ quantifier ++ "' quantifier at pattern start"
  | quantifierAfter quantifier previous =>
    "Found '" ++ quantifier ++ "' quantifier after non-token: " ++ previous
  | reversedRange range => "Range quantifier cannot have max less than min: " ++ range
  | quantifiedLookBehind quantifier =>
    "Look-behind accepts only '!', found '" ++ quantifier ++ "'"
  | unknownId id => "No such pattern with ID = " ++ toString id
  | unknownName name => "No such pattern named '" ++ name ++ "'"
  | lookBehindContent fault => fault.message
  | nameTaken => "duplicate name"

end PatternFault.Cause

/-- A fault in the text or the name of a pattern. -/
structure PatternFault where
  cause : PatternFault.Cause
  /-- The position in the pattern text, in characters. -/
  position : Option Nat := none
  /-- The lexeme to blame. -/
  token : Option String := none
  /-- The name of the pattern. -/
  name : Option String := none
deriving Repr

/-- The whole message of a fault in a pattern. -/
def PatternFault.message (fault : PatternFault) : String :=
  match fault.cause, fault.name with
  | .nameTaken, some name => "Already a pattern named '" ++ name ++ "'"
  | cause, name =>
    let subject := match name with
      | some name => "'" ++ name ++ "' pattern"
      | none => "nameless pattern"
    let place := match fault.position with
      | some position => " (at position " ++ toString position ++ ")"
      | none => ""
    "Error parsing " ++ subject ++ ": " ++ cause.message ++ place

/-- What can go wrong. -/
inductive Fault where
  | pattern (fault : PatternFault)
  /-- A paragraph holds a character outside the alphabet. -/
  | corpus (character : Char) (paragraph : Int) (context : String)
  | notInteger (text : String)
  /-- An integer has more digits than may be read, or than may be written if no number is told. -/
  | integerTooLong (digits : Option Nat)
  | unknownKind (name : String)
  | noSuchRank (written : String)
  | idTaken (id : Int)
  /-- The pattern of this identity is needed by those others. -/
  | stillReferenced (identity : String) (users : List String)
  /-- A pattern with neither a name nor an id cannot be referred to. -/
  | noIdentity
  /-- A pattern is made of a literal text or of a tree, and not of both. -/
  | contentChoice
  | tableHeader (header : String)
  | tableRow (number : Nat) (row : String)
  | unknownOptions (names : List String)
  /-- Settings are written as a list of keys, of which the first has this length. -/
  | keysOnly (length : Nat)
  | unknownStrategy (name : String) (known : List String)
  /-- No registered pattern has this id. -/
  | missing (id : Int)
  /-- The expansion of a pattern leads back to it. -/
  | endless
  /-- A group without any node has no description. -/
  | emptyGroup
  /-- A token lies outside the chart's text. -/
  | outsideChart
  /-- A pattern that is a bare reference to a literal has no alternatives to expand. -/
  | loneReference
  /-- A value is of another type than its use requires. -/
  | illTyped
  /-- A use requires a text where there is none. -/
  | noText
  | malformedJson
  /-- A JSON value has too many containers nested. -/
  | tooDeep
  | noFile (path : String)
  | notAFile (path : String)
  /-- A path leads through a file as if it were a folder. -/
  | notAFolder (path : String)
  /-- A path, or a name on it, is longer than names may be. -/
  | pathTooLong (path : String)
  /-- A path holds the character zero. -/
  | zeroInPath
  /-- A request names something that is not there. -/
  | request (reason : String)
deriving Repr

/-- The fault in words. -/
def Fault.message : Fault → String
  | pattern fault => fault.message
  | corpus character paragraph context =>
    "Found a non-allowed character " ++ Text.shown (String.ofList [character]) ++
      " in paragraph " ++ toString paragraph ++ ": \"" ++ context ++ "\""
  | notInteger text =>
    "invalid literal for int() with base 10: " ++
      String.ofList ((Text.shown text).toList.take 200)
  | integerTooLong digits =>
    let found := match digits with
      | some number => ": value has " ++ toString number ++ " digits"
      | none => ""
    "Exceeds the limit (" ++ toString Text.mostDigits ++
      " digits) for integer string conversion" ++ found ++
      "; use sys.set_int_max_str_digits() to increase the limit"
  | unknownKind name => "unknown pattern kind: " ++ name
  | noSuchRank written => written ++ " is not a valid Kind"
  | idTaken id => "pattern id " ++ toString id ++ " is already registered"
  | stillReferenced identity users =>
    "pattern " ++ identity ++ " is still referenced by " ++ ", ".intercalate users
  | noIdentity => "this pattern has no identity"
  | contentChoice => "a pattern needs exactly one of literal text or a node tree"
  | tableHeader header => "pattern table must start with '" ++ header ++ "'"
  | tableRow number row =>
    "malformed pattern table row " ++ toString number ++ ": " ++ Text.shown row
  | unknownOptions names => "unknown training options: " ++ ", ".intercalate names
  | keysOnly length =>
    "dictionary update sequence element #0 has length " ++ toString length ++ "; 2 is required"
  | unknownStrategy name known =>
    "unknown proposal strategy: " ++ name ++ " (choose from " ++ ", ".intercalate known ++ ")"
  | missing id => toString id
  | endless => "endless expansion"
  | emptyGroup => "empty group"
  | outsideChart => "token outside chart"
  | loneReference => "lone reference"
  | illTyped => "value of a wrong type"
  | noText => "no text"
  | malformedJson => "malformed JSON"
  | tooDeep => "too many nested values"
  | noFile path => "[Errno 2] No such file or directory: " ++ Text.shown path
  | notAFile path => "[Errno 21] Is a directory: " ++ Text.shown path
  | notAFolder path => "[Errno 20] Not a directory: " ++ Text.shown path
  | pathTooLong path => "[Errno 36] File name too long: " ++ Text.shown path
  | zeroInPath => "embedded null byte"
  | request reason => reason

end Motif
