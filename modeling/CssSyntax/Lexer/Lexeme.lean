import CssSyntax.Token
import CssSyntax.Lexer.Piece

/-!
# Lexemes

A lexeme is a token cut from the front of some bytes, before its place in the document is known.
-/

namespace CssSyntax.Lexer

/-- A token cut from the front of some bytes. -/
structure Lexeme where
  kind : Kind
  /-- The bytes behind the token. -/
  rest : List UInt8
  /-- Whether the end of the input was met inside the token, so that it is read as well. -/
  ended : Bool := false
  /-- The runs of pieces that were read on the way, also in an attempt that was given up. -/
  runs : List Run := []
deriving DecidableEq, Repr

/-- The escapes that were dropped on the way. -/
def Lexeme.dropped (lexeme : Lexeme) : List DroppedEscape :=
  lexeme.runs.flatMap Run.dropped

/-- The token of the given kind that takes the first `n` bytes. -/
def Lexeme.take (kind : Kind) (n : Nat) (s : List UInt8) : Lexeme :=
  { kind, rest := s.drop n }

end CssSyntax.Lexer
