import CssSyntax.Lexer.Blank
import CssSyntax.Lexer.Lexeme

/-!
# Names and identifiers

A name is a run of name pieces. An identifier is a name that does not start like a number, a pair of
dashes or a lone dash; at-keywords, units and `!important` hold identifiers, a hash holds any name.
-/

namespace CssSyntax.Lexer

open Byte

/-- Reads the pieces of a name. -/
def readName (s : List UInt8) : Run :=
  readRun isName false s

/-- Whether the first bytes can start an identifier: a dash needs something else than a dash or a
digit behind it. -/
def startsIdent : List UInt8 → Bool
  | [] => false
  | b :: s => isNameStart b && !(b == dash && s.head?.any fun c => c == dash || isDigit c)

/-- Reads what may be an identifier; nothing is read where none can start. -/
def readIdent (s : List UInt8) : Run :=
  if startsIdent s then readName s else ⟨[], s⟩

/-- The identifier at the front of some bytes. A name of which only a dash remains is none. -/
def ident? (s : List UInt8) : Option String :=
  if startsIdent s && (readIdent s).bytes != [dash] then some (readIdent s).text else none

/-- A name leaves the end of the bytes. -/
theorem readName_suffix (s : List UInt8) : (readName s).rest <:+ s :=
  readRun_suffix isName false s

/-- What may be an identifier leaves the end of the bytes. -/
theorem readIdent_suffix (s : List UInt8) : (readIdent s).rest <:+ s := by
  unfold readIdent
  split
  · exact readName_suffix s
  · exact List.suffix_rfl

/-- Where an identifier can start, a byte is read. -/
theorem length_readIdent_lt {s : List UInt8} (h : startsIdent s = true) :
    (readIdent s).rest.length < s.length := by
  cases s with
  | nil => cases h
  | cons b s =>
    have hb : isName b = true := by
      simp only [startsIdent, Bool.and_eq_true] at h
      simp [isName, h.1]
    rw [readIdent, if_pos h]
    exact length_readRun_lt false s hb

/-- The kind of the at-keyword with the given name, in any letter case. -/
def atKeywordKind (name : String) : Kind :=
  let known := name.toLower
  if known = "import" then .atImport
  else if known = "page" then .atPage
  else if known = "media" then .atMedia
  else if known = "charset" then .atCharset
  else .atUnknown

/-- The token of an `@` before the given bytes. -/
def cutAtKeyword (s : List UInt8) : Lexeme :=
  match ident? s with
  | some name =>
    { kind := atKeywordKind name, rest := (readIdent s).rest, runs := [readIdent s] }
  | none => { kind := .invalid, rest := s, runs := [readIdent s] }

/-- The token of a `#` before the given bytes. -/
def cutHash (s : List UInt8) : Lexeme :=
  if s.head?.any isName then
    { kind := .hash (readName s).text, rest := (readName s).rest, runs := [readName s] }
  else { kind := .invalid, rest := s }

/-- The token of a `!` before the given bytes; blanks and comments may stand in front of the word
`important`. -/
def cutImportant (s : List UInt8) : Lexeme :=
  let word := skipBlanks (skipComments s)
  if (ident? word).any (·.toLower = "important") then
    { kind := .important, rest := (readIdent word).rest, runs := [readIdent word] }
  else { kind := .invalid, rest := s, runs := [readIdent word] }

/-- An at-keyword leaves the end of the bytes. -/
theorem cutAtKeyword_suffix (s : List UInt8) : (cutAtKeyword s).rest <:+ s := by
  unfold cutAtKeyword
  split
  · exact readIdent_suffix s
  · exact List.suffix_rfl

/-- A hash leaves the end of the bytes. -/
theorem cutHash_suffix (s : List UInt8) : (cutHash s).rest <:+ s := by
  unfold cutHash
  split
  · exact readName_suffix s
  · exact List.suffix_rfl

/-- The mark of importance leaves the end of the bytes. -/
theorem cutImportant_suffix (s : List UInt8) : (cutImportant s).rest <:+ s := by
  unfold cutImportant
  dsimp only
  split
  · exact (readIdent_suffix _).trans ((skipBlanks_suffix _).trans (skipComments_suffix s))
  · exact List.suffix_rfl

end CssSyntax.Lexer
