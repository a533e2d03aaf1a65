import CssSyntax.Location

/-!
# Errors

Why a production of the grammar fails. The parser recovers from every cause but misuse, so only
misuse ever reaches a caller that reads a whole stylesheet.
-/

namespace CssSyntax

/-- A message about a document, with the place it concerns if there is one. -/
structure Diagnostic where
  message : String
  location : Option Location
deriving DecidableEq, Repr

/-- The message followed by its place. -/
def Diagnostic.text (d : Diagnostic) : String :=
  match d.location with
  | some l => d.message ++ " at " ++ l.text
  | none => d.message

/-- The ways to drive a parser that it does not support. -/
inductive Misuse where
  /-- A token is pushed back already. -/
  | pushBackTwice
  /-- There is no token in front of the current one. -/
  | noPrevious
  /-- Any other misuse, in words. -/
  | other (reason : String)
deriving DecidableEq, Repr

/-- What was done wrong. -/
def Misuse.reason : Misuse → String
  | pushBackTwice => "cannot push back more than one token"
  | noPrevious => "no previous token to return to"
  | other r => r

/-- Why a production fails. -/
inductive ParseError where
  /-- The current token does not continue the production. -/
  | unexpectedToken (expected found : String) (location : Location)
  /-- A function stands inside as many functions as the limit allows. -/
  | nestingTooDeep (limit : Nat) (location : Location)
  | misuse (cause : Misuse)
deriving DecidableEq, Repr

namespace ParseError

/-- Whether the parser goes on behind the construct that failed. -/
def isRecoverable : ParseError → Bool
  | misuse _ => false
  | _ => true

/-- The place of the token that caused the failure. -/
def location? : ParseError → Option Location
  | unexpectedToken _ _ l => some l
  | nestingTooDeep _ l => some l
  | misuse _ => none

/-- The cause without its place. -/
def summary : ParseError → String
  | unexpectedToken e f _ => "expected " ++ e ++ ", found " ++ f
  | nestingTooDeep n _ => "functions nested deeper than " ++ toString n ++ " levels"
  | misuse m => "parser misuse: " ++ m.reason

/-- The cause as a message about the document. -/
def toDiagnostic (e : ParseError) : Diagnostic :=
  ⟨e.summary, e.location?⟩

/-- The full text of the cause. -/
def message (e : ParseError) : String :=
  e.toDiagnostic.text

end ParseError

end CssSyntax
