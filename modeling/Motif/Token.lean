/-!
# Tokens and holes

A token is one match of one pattern in a text. A hole is a stretch of text that no token covers.
-/

namespace Motif

/-- A match of the pattern of id `id`, with the tokens it is made of. -/
structure Token where
  id : Int
  start : Int
  length : Int
  text : String
  children : List Token := []
deriving Repr, Inhabited

namespace Token

/-- The position after the last character. -/
def stop (token : Token) : Int :=
  token.start + token.length

/-- The position of the last character. -/
def last (token : Token) : Int :=
  token.start + token.length - 1

end Token

/-- A stretch of text without tokens. -/
structure Hole where
  start : Int
  length : Int
  text : String
deriving DecidableEq, Repr, Inhabited

/-- The position after the last character. -/
def Hole.stop (hole : Hole) : Int :=
  hole.start + hole.length

end Motif
