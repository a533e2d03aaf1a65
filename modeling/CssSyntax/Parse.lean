import CssSyntax.Grammar.Stylesheet

/-!
# Parsing

Reads a stylesheet or a list of declarations from a text or from tokens. Malformed parts are dropped,
so nothing here fails on account of the text.
-/

namespace CssSyntax

/-- What comes of a parse: its result, with a failure as a message about the document, and the log. -/
structure Report (α : Type) where
  result : Except Diagnostic α
  log : List Record

/-- The report of an action on a parser. -/
def Parser.report {α : Type} (m : ParseM α) (p : Parser) : Report α :=
  let (result, q) := m p
  ⟨result.mapError ParseError.toDiagnostic, q.takeLog.1⟩

/-- Reads the stylesheet that a source holds. -/
def parseSource (source : Source) (config : Config) : Report Stylesheet :=
  (Parser.ofSource source config).report Grammar.document

/-- Reads the stylesheet that a text holds. -/
def parseText (text : String) (config : Config) : Report Stylesheet :=
  (Parser.ofText text config).report Grammar.document

/-- Reads the declarations that a text holds, as in the `style` attribute of an element. -/
def parseDeclarationsText (text : String) (config : Config) : Report (List Declaration) :=
  (Parser.ofText text config).report Grammar.declarations

/-- The stylesheet that a text holds, with the usual settings. -/
def parse (text : String) : Except Diagnostic Stylesheet :=
  (parseText text {}).result

/-- The declarations that a text holds, with the usual settings. -/
def parseDeclarations (text : String) : Except Diagnostic (List Declaration) :=
  (parseDeclarationsText text {}).result

end CssSyntax
