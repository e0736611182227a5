import Motif.Fault
import Motif.Text.Blank
import Motif.Text.Lines

/-!
# Corpora

A corpus is a text whose paragraphs are separated by blank lines. Paragraphs are brought to one
line of characters from an alphabet: dashes become hyphens, and each run of spaces, tabs and line
ends becomes one space.
-/

namespace Motif.Corpus

/-- The paragraphs between runs of two or more line feeds. `paragraph` is what has been read of the
current one and `feeds` counts the line feeds after it. -/
def paragraphsFrom (paragraph : List Char) (feeds : Nat) : List Char → List (List Char)
  | [] => [(List.replicate feeds '\n' ++ paragraph).reverse]
  | c :: rest =>
    if c = '\n' then paragraphsFrom paragraph (feeds + 1) rest
    else if 2 ≤ feeds then paragraph.reverse :: paragraphsFrom [c] 0 rest
    else paragraphsFrom (c :: (List.replicate feeds '\n' ++ paragraph)) 0 rest

/-- The paragraphs of a text. -/
def split (text : String) : List String :=
  let body := Text.trimWhere (· = '\n') (Text.unifyLineEnds text.toList)
  if body.isEmpty then [] else (paragraphsFrom [] 0 body).map String.ofList

/-- What a character of a raw paragraph becomes. -/
def plain (c : Char) : List Char :=
  if c = '\n' || c = '\t' then [' ']
  else if c = '—' then ['-', '-']
  else if c = '–' then ['-']
  else [c]

/-- One space for each run of spaces; `spaced` tells that a space stands before the text. -/
def collapse (spaced : Bool) : List Char → List Char
  | [] => []
  | c :: rest =>
    if c = ' ' && spaced then collapse true rest else c :: collapse (c = ' ') rest

/-- A paragraph on one line, without tabs and long dashes, superfluous spaces removed. -/
def normalize (text : String) : String :=
  String.ofList (Text.trimWhere (· = ' ') (collapse false (text.toList.flatMap plain)))

/-- How much text around a fault is shown on each side. -/
def contextWidth : Nat := 20

/-- The first character outside an alphabet, with the index at which it stands. -/
def firstOutside? (alphabet : List Char) (cs : List Char) : Option (Nat × Char) :=
  (cs.findIdx? fun c => !alphabet.contains c).bind fun index => cs[index]?.map (index, ·)

/-- Refuses a paragraph with a character outside the alphabet. -/
def validate (text : String) (alphabet : List Char) (number : Int) : Except Fault Unit :=
  let cs := text.toList
  match firstOutside? alphabet cs with
  | none => .ok ()
  | some (index, c) =>
    let start := index - contextWidth
    let context := (cs.take (index + contextWidth + 1)).drop start
    .error (.corpus c number (String.ofList context))

/-- The normalized paragraphs, the first of them with a number; empty ones are left out. -/
def loadFrom (alphabet : List Char) : Nat → List String → Except Fault (List String)
  | _, [] => .ok []
  | number, raw :: rest => do
    let paragraph := normalize raw
    validate paragraph alphabet number
    let others ← loadFrom alphabet (number + 1) rest
    return if paragraph.isEmpty then others else paragraph :: others

/-- The paragraphs of a text, ready for training. -/
def load (text : String) (alphabet : List Char) : Except Fault (List String) :=
  loadFrom alphabet 1 (split text)

end Motif.Corpus
