import CssSyntax.Location

/-!
# Tokens

The tokens of CSS 2.1, each with the place it was found at. Names, strings and urls hold their text
with all escapes resolved; numbers stay text.
-/

namespace CssSyntax

/-- What the number of a token or of a term measures, by what follows its digits. -/
inductive Measure where
  | number
  | percentage
  | em
  | ex
  | length (unit : String)
  | angle (unit : String)
  | time (unit : String)
  | frequency (unit : String)
  /-- A unit that is not known. -/
  | dimension (unit : String)
deriving DecidableEq, Repr

namespace Measure

/-- The unit that a measure carries as text of its own. -/
def unit? : Measure → Option String
  | length u | angle u | time u | frequency u | dimension u => some u
  | number | percentage | em | ex => none

/-- What is written behind the digits. -/
def symbol : Measure → String
  | number => ""
  | percentage => "%"
  | em => "em"
  | ex => "ex"
  | length u | angle u | time u | frequency u | dimension u => u

/-- The measure that a unit names in any letter case. A unit that is known is kept in lower case,
any other as it was written. -/
def ofUnit (unit : String) : Measure :=
  let known := unit.toLower
  if known = "em" then .em
  else if known = "ex" then .ex
  else if known ∈ ["px", "cm", "mm", "in", "pt", "pc"] then .length known
  else if known ∈ ["deg", "rad", "grad"] then .angle known
  else if known ∈ ["ms", "s"] then .time known
  else if known ∈ ["hz", "khz"] then .frequency known
  else .dimension unit

end Measure

/-- The kinds of tokens. -/
inductive Kind where
  /-- Something that forms no token. -/
  | invalid
  | colon
  | semicolon
  | lcurly
  | rcurly
  | lbracket
  | rbracket
  | lparen
  | rparen
  | plus
  | minus
  | slash
  | star
  | greater
  | comma
  | dot
  | equals
  /-- Blanks that may matter, as they were written. -/
  | whitespace (blanks : String)
  | cdo
  | cdc
  | includes
  | dashMatch
  /-- A string without its quotes, and the quote that encloses it. -/
  | string (value : String) (quote : Char)
  | url (value : String)
  | ident (name : String)
  /-- A name with an opening parenthesis directly behind it. -/
  | function (name : String)
  | atImport
  | atPage
  | atMedia
  | atCharset
  /-- Any other at-keyword. -/
  | atUnknown
  | hash (name : String)
  | important
  | numeric (value : String) (measure : Measure)
  /-- The end of the input. -/
  | eof
deriving DecidableEq, Repr

namespace Kind

/-- The text that a token carries. -/
def value? : Kind → Option String
  | whitespace v | string v _ | url v | ident v | function v | hash v | numeric v _ => some v
  | _ => none

/-- The unit that a token carries. -/
def unit? : Kind → Option String
  | numeric _ m => m.unit?
  | _ => none

/-- The quote that encloses a string. -/
def quote? : Kind → Option Char
  | string _ q => some q
  | _ => none

/-- The text of a token in messages. -/
def text : Kind → String
  | invalid => "<invalid>"
  | colon => ":"
  | semicolon => ";"
  | lcurly => "\x7b"
  | rcurly => "\x7d"
  | lbracket => "["
  | rbracket => "]"
  | lparen => "("
  | rparen => ")"
  | plus => "+"
  | minus => "-"
  | slash => "/"
  | star => "*"
  | greater => ">"
  | comma => ","
  | dot => "."
  | equals => "="
  | whitespace _ => " "
  | cdo => "<!--"
  | cdc => "-->"
  | includes => "~="
  | dashMatch => "|="
  | string v q => q.toString ++ v ++ q.toString
  | url v => "url(" ++ v ++ ")"
  | ident v => v
  | function v => v ++ "("
  | atImport => "@import"
  | atPage => "@page"
  | atMedia => "@media"
  | atCharset => "@charset"
  | atUnknown => "@<unknown>"
  | hash v => "#" ++ v
  | important => "!important"
  | numeric v m => v ++ m.symbol
  | eof => "eof"

/-- Whether a token is a run of blanks. -/
def isWhitespace : Kind → Bool
  | whitespace _ => true
  | _ => false

/-- Whether a token may stand between two rules without a meaning of its own. -/
def isFiller : Kind → Bool
  | whitespace _ | cdo | cdc => true
  | _ => false

/-- Whether a token can start a selector. -/
def startsSelector : Kind → Bool
  | ident _ | star | hash _ | dot | lbracket | colon => true
  | _ => false

/-- Whether a token can start a term. -/
def startsTerm : Kind → Bool
  | minus | plus | numeric _ _ | string _ _ | ident _ | url _ | hash _ | function _ => true
  | _ => false

end Kind

/-- A token and the place of its first byte. -/
structure Token where
  kind : Kind
  location : Location
deriving DecidableEq, Repr

namespace Token

/-- The text of a token in messages. -/
def text (t : Token) : String :=
  t.kind.text

/-- Whether a token ends the input. -/
def isEof (t : Token) : Bool :=
  t.kind = .eof

/-- The text of a token in quotes, together with its place. -/
def mention (t : Token) : String :=
  "'" ++ t.text ++ "' at " ++ t.location.text

end Token

end CssSyntax
