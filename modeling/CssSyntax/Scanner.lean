import CssSyntax.Record
import CssSyntax.Lexer.Scan

/-!
# Scanners

A scanner cuts a text into tokens, one at a time, and gives each its place in the document. It is a
text together with the number of bytes read so far; the end of the input counts as one more byte
once a token has met it.
-/

namespace CssSyntax

/-- A token read from a source, with the records of its reading and the source behind it. -/
structure Read (σ : Type) where
  token : Token
  records : List Record
  source : σ

/-- A text that is read token by token. -/
structure Scanner where
  text : List UInt8
  lines : LineIndex
  read : Nat
deriving Repr

namespace Scanner

open Lexer

/-- A scanner at the start of some bytes, the first of which stands at the given place. -/
def ofBytes (bytes : List UInt8) (start : Location) : Scanner :=
  ⟨bytes, .ofBytes start bytes, 0⟩

/-- A scanner at the start of a text that starts at the given place. -/
def ofText (text : String) (start : Location) : Scanner :=
  ofBytes (Utf8.bytes text) start

/-- A scanner at the start of another text, which starts at the same place. -/
def setText (sc : Scanner) (text : String) : Scanner :=
  ofText text sc.lines.start

/-- The bytes that are not read yet. -/
def rest (sc : Scanner) : List UInt8 :=
  sc.text.drop sc.read

/-- The place of the last byte that was read. -/
def location (sc : Scanner) : Location :=
  sc.lines.locate (sc.read - 1)

/-- The place from which the given number of bytes is left. -/
def locationBefore (sc : Scanner) (left : Nat) : Location :=
  sc.lines.locate (sc.text.length - left)

/-- The scanner behind a token. -/
def behind (sc : Scanner) (lexeme : Lexeme) : Scanner :=
  { sc with
    read := if lexeme.ended then sc.text.length + 1 else sc.text.length - lexeme.rest.length }

/-- Reads a token. Once the input has ended, every token is its end. -/
def next (sc : Scanner) : Read Scanner :=
  let lexeme := scan sc.rest
  { token := ⟨lexeme.kind, sc.locationBefore (tokenStart sc.rest).length⟩
    records := lexeme.dropped.map fun d => .droppedEscape d.error (sc.locationBefore (d.left + 1))
    source := sc.behind lexeme }

/-- Behind a token a scanner has no more bytes left than the token leaves. -/
theorem length_behind_rest_le (sc : Scanner) (lexeme : Lexeme) :
    (sc.behind lexeme).rest.length ≤ lexeme.rest.length := by
  unfold behind rest
  dsimp only
  rw [List.length_drop]
  split <;> omega

/-- Every token but the end of the input leaves fewer bytes to read. -/
theorem length_next_rest_lt {sc : Scanner} (h : sc.next.token.kind ≠ .eof) :
    sc.next.source.rest.length < sc.rest.length :=
  Nat.lt_of_le_of_lt (length_behind_rest_le sc _) (length_scan_lt h)

/-- All reads in front of the end of the input. -/
def reads (sc : Scanner) : List (Read Scanner) :=
  if h : sc.next.token.kind = .eof then []
  else
    have := length_next_rest_lt h
    sc.next :: reads sc.next.source
termination_by sc.rest.length

/-- All tokens in front of the end of the input. -/
def tokens (sc : Scanner) : List Token :=
  sc.reads.map Read.token

/-- The records of reading all tokens. -/
def records (sc : Scanner) : List Record :=
  sc.reads.flatMap Read.records

end Scanner

/-- The tokens of a text. -/
def tokenize (text : String) (start : Location) : List Token :=
  (Scanner.ofText text start).tokens

end CssSyntax
