import CssSyntax.Error
import CssSyntax.Token
import CssSyntax.Text.CodePoint

/-!
# Log records

What the scanner and the parser note while they read: productions that are tried, escapes that are
dropped and everything that is ignored to recover from an error.
-/

namespace CssSyntax

/-- How much a record matters. -/
inductive Level where
  | warn
  | debug
  | trace
deriving DecidableEq, Repr

/-- The name of a level. -/
def Level.name : Level → String
  | warn => "WARN"
  | debug => "DEBUG"
  | trace => "TRACE"

/-- The verbosity of a level; a log of some level holds the records of all smaller ones. -/
def Level.rank : Level → Nat
  | warn => 1
  | debug => 2
  | trace => 3

/-- The productions of the grammar that leave a record when they are tried. -/
inductive Production where
  | stylesheet
  | charset
  | importRule
  | unknownAtRule
  | ruleset
  | selector
  | selectorGroup
  | classSelector
  | attributeSelector
  | pseudoSelector
  | combinator
  | declaration
  | declarations
  | expression
  | term
  | function
deriving DecidableEq, Repr

/-- The name of a production in records. -/
def Production.name : Production → String
  | stylesheet => "parse_stylesheet"
  | charset => "parse_charset"
  | importRule => "parse_import"
  | unknownAtRule => "skip_unknown_at_rule"
  | ruleset => "parse_ruleset"
  | selector => "parse_selector"
  | selectorGroup => "parse_selector_group"
  | classSelector => "parse_class_selector"
  | attributeSelector => "parse_attribute_selector"
  | pseudoSelector => "parse_pseudo_selector"
  | combinator => "parse_combinator"
  | declaration => "parse_declaration"
  | declarations => "parse_declarations"
  | expression => "parse_expression"
  | term => "parse_term"
  | function => "parse_function"

/-- Where parsing goes on after an error. -/
inductive Boundary where
  /-- Behind the next `;`, or on the `}` that ends the enclosing block. -/
  | declaration
  /-- Behind the next complete block in braces. -/
  | block
deriving DecidableEq, Repr

/-- The name of a boundary in records. -/
def Boundary.name : Boundary → String
  | declaration => "Declaration"
  | block => "Brace"

/-- An entry of the log. -/
inductive Record where
  /-- An escape named no character; the place is that of its last byte. -/
  | droppedEscape (error : CodePointError) (location : Location)
  /-- A stylesheet from a named source is read. -/
  | reading (source : Option String)
  | tried (production : Production)
  /-- The parser starts to skip tokens at the given one. -/
  | resyncing (boundary : Boundary) (token : Token)
  | ignoredError (production : Production) (error : ParseError)
  | ignoredRuleset (token : Token)
  | ignoredDeclaration (token : Token)
deriving DecidableEq, Repr

namespace Record

/-- The level of a record. -/
def level : Record → Level
  | droppedEscape _ _ | reading _ => .debug
  | tried _ | resyncing _ _ => .trace
  | ignoredError _ _ | ignoredRuleset _ | ignoredDeclaration _ => .warn

/-- The message of a record. -/
def message : Record → String
  | droppedEscape e l => "dropping escape at " ++ l.text ++ ": " ++ e.message
  | reading source => "parsing stylesheet " ++ source.getD "<inline>"
  | tried production => production.name
  | resyncing boundary t => "recover(" ++ boundary.name ++ ") from " ++ t.mention
  | ignoredError production e => "Ignoring error in " ++ production.name ++ ": " ++ e.message
  | ignoredRuleset t => "Ignoring ruleset starting with " ++ t.mention
  | ignoredDeclaration t => "Ignoring declaration starting with " ++ t.mention

/-- The line of a record in the log. -/
def text (r : Record) : String :=
  r.level.name ++ " " ++ r.message

/-- Whether a log of the given level holds the record. -/
def within (level : Level) (r : Record) : Bool :=
  r.level.rank ≤ level.rank

end Record

end CssSyntax
