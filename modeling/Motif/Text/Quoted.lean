/-!
# Quoted text

Names and literals are written between single quotes with each inner quote doubled. Reading is
lenient: a text that does not stand between quotes is taken as it is.
-/

namespace Motif.Text

/-- Doubles every single quote. -/
def doubleQuotes : List Char → List Char
  | [] => []
  | c :: rest => if c = '\'' then '\'' :: '\'' :: doubleQuotes rest else c :: doubleQuotes rest

/-- Makes one quote of each two that stand together, from the left. -/
def halveQuotes : List Char → List Char
  | '\'' :: '\'' :: rest => '\'' :: halveQuotes rest
  | c :: rest => c :: halveQuotes rest
  | [] => []

/-- The text between single quotes, its own quotes doubled. -/
def quote (text : String) : String :=
  "'" ++ String.ofList (doubleQuotes text.toList) ++ "'"

/-- The text that a quoted form stands for; any other text stands for itself. -/
def unquote (text : String) : String :=
  match text.toList with
  | '\'' :: rest =>
    if rest.getLast? = some '\'' then String.ofList (halveQuotes rest.dropLast) else text
  | _ => text

end Motif.Text
