/-!
# How names, strings and urls are written

A name, the inside of a string and the parameter of a url are written in pieces: characters that
stand for themselves, escapes, and line breaks behind a backslash. This is what each piece looks
like and what it stands for, whoever reads it.
-/

namespace CssSyntax

/-- A line break. A carriage return and a line feed are one. -/
inductive LineBreak where
  | crlf
  | cr
  | lf
  | ff
deriving DecidableEq, Repr

/-- The characters of a line break. -/
def LineBreak.text : LineBreak → List Char
  | crlf => ['\r', '\n']
  | cr => ['\r']
  | lf => ['\n']
  | ff => ['\x0C']

/-- The single blank that may end the digits of an escape. -/
inductive Terminator where
  | lineBreak (lineBreak : LineBreak)
  | space
  | tab
deriving DecidableEq, Repr

/-- The characters of a terminator. -/
def Terminator.text : Terminator → List Char
  | lineBreak b => b.text
  | space => [' ']
  | tab => ['\t']

/-- The characters that break a line, alone or together. -/
def isBreakChar (c : Char) : Bool :=
  c ∈ ['\n', '\r', '\x0C']

/-- Characters that are blanks. -/
def isBlankChar (c : Char) : Bool :=
  isBreakChar c || c ∈ [' ', '\t']

/-- The value of a hexadecimal digit in either letter case: its place among the sixteen. -/
def hexCharValue? (c : Char) : Option Nat :=
  ['0', '1', '2', '3', '4', '5', '6', '7', '8', '9', 'a', 'b', 'c', 'd', 'e', 'f'].idxOf? c.toLower

/-- Hexadecimal digits. -/
def isHexChar (c : Char) : Bool :=
  (hexCharValue? c).isSome

/-- The digits of an escape: one to six of them. -/
structure HexDigits where
  chars : List Char
  hex : chars.all isHexChar = true
  ne_nil : chars ≠ []
  le_six : chars.length ≤ 6

namespace HexDigits

/-- The number that the digits write. -/
def number (digits : HexDigits) : Nat :=
  digits.chars.foldl (fun n c => 16 * n + (hexCharValue? c).getD 0) 0

/-- The character whose code point the digits write. Surrogates and numbers past the last plane are
no code points of a character. -/
def char? (digits : HexDigits) : Option Char :=
  if digits.number.isValidChar then some (Char.ofNat digits.number) else none

end HexDigits

/-- A piece of a name, a string or a url as it is written. -/
inductive Written where
  /-- A character that stands for itself. -/
  | plain (char : Char)
  /-- A backslash and a character that it makes plain. -/
  | escaped (char : Char) (hex : isHexChar char = false) (newline : isBreakChar char = false)
  /-- A backslash and the digits of a code point. -/
  | numeric (digits : HexDigits) (terminator : Option Terminator)
  /-- A backslash and a line break, which join two lines. -/
  | continuation (lineBreak : LineBreak)

namespace Written

/-- The characters of a piece in the text. -/
def text : Written → List Char
  | plain c => [c]
  | escaped c _ _ => ['\\', c]
  | numeric digits terminator => '\\' :: (digits.chars ++ terminator.elim [] Terminator.text)
  | continuation b => '\\' :: b.text

/-- What a piece stands for. Digits that name no character stand for nothing, as a continuation
does. -/
def value : Written → List Char
  | plain c => [c]
  | escaped c _ _ => [c]
  | numeric digits _ => digits.char?.toList
  | continuation _ => []

/-- Whether a piece ends in a carriage return. -/
def endsInReturn : Written → Bool
  | numeric _ (some (.lineBreak .cr)) => true
  | continuation .cr => true
  | _ => false

/-- Whether a piece is a line break behind a backslash. -/
def isContinuation : Written → Bool
  | continuation _ => true
  | _ => false

/-- Whether a piece belongs to the given characters, unless it is an escape or a continuation. -/
def plainIn (belongs : Char → Bool) : Written → Bool
  | plain c => belongs c
  | _ => true

/-- Digits without a terminator end in front of a text that neither starts with a blank nor, if
there are less than six of them, with another digit. -/
def EndsBefore (behind : List Char) : Written → Prop
  | numeric digits none => ∀ c ∈ behind.head?,
      isBlankChar c = false ∧ (digits.chars.length < 6 → isHexChar c = false)
  | _ => True

/-- A carriage return at the end of a piece and a line feed behind it would be one line break. -/
def Separate (behind : List Char) (w : Written) : Prop :=
  w.endsInReturn = true → behind.head? ≠ some '\n'

/-- A relation between each of some pieces and the text behind it, the last of them in front of the
given text. -/
def Along (related : List Char → Written → Prop) (behind : List Char) : List Written → Prop
  | [] => True
  | w :: ws => related (ws.flatMap text ++ behind) w ∧ Along related behind ws

instance (behind : List Char) (w : Written) : Decidable (EndsBefore behind w) :=
  match w with
  | numeric digits none => inferInstanceAs (Decidable (∀ c ∈ behind.head?,
      isBlankChar c = false ∧ (digits.chars.length < 6 → isHexChar c = false)))
  | plain _ | escaped _ _ _ | numeric _ (some _) | continuation _ =>
    inferInstanceAs (Decidable True)

instance (behind : List Char) (w : Written) : Decidable (Separate behind w) :=
  inferInstanceAs (Decidable (w.endsInReturn = true → behind.head? ≠ some '\n'))

instance decidableAlong {related : List Char → Written → Prop} (behind : List Char)
    [∀ s w, Decidable (related s w)] : (ws : List Written) → Decidable (Along related behind ws)
  | [] => inferInstanceAs (Decidable True)
  | w :: ws =>
    have : Decidable (Along related behind ws) := decidableAlong behind ws
    inferInstanceAs (Decidable (related (ws.flatMap text ++ behind) w ∧ Along related behind ws))

end Written

/-- Characters that stand for themselves in a string between the given quotes. -/
def isStringChar (quote : Char) (c : Char) : Bool :=
  c ≠ quote && c ≠ '\\' && !isBreakChar c

/-- Characters that stand for themselves at the start of a name: letters, `_` and what is not
ASCII. -/
def startsNameChar (c : Char) : Bool :=
  c.isAlpha || c = '_' || 0x80 ≤ c.toNat

/-- Characters that stand for themselves in a name. -/
def isNameChar (c : Char) : Bool :=
  startsNameChar c || c.isDigit || c = '-'

/-- Pieces that write an identifier in front of a text: one that can start a name, behind a dash or
not, and others behind it, up to something that belongs to no name. -/
structure WritesIdentifier (ws : List Written) (behind : List Char) : Prop where
  starts : ∃ first more, (ws = first :: more ∨ ws = .plain '-' :: first :: more) ∧
    first.plainIn startsNameChar = true
  plain : ∀ w ∈ ws, w.plainIn isNameChar = true
  noContinuation : ∀ w ∈ ws, w.isContinuation = false
  ends : Written.Along Written.EndsBefore behind ws
  separate : Written.Along Written.Separate behind ws
  stops : ∀ c ∈ behind.head?, isNameChar c = false ∧ c ≠ '\\'

/-- Characters that stand for themselves in a url without quotes. -/
def isUrlChar (c : Char) : Bool :=
  0x80 ≤ c.toNat || c ∈ ['!', '#', '$', '%', '&'] || ('*' ≤ c && c ≤ '~' && c ≠ '\\')

/-- Pieces that write the parameter of a url in front of some blanks. No blank stands behind digits
that have no terminator. -/
structure WritesUrl (ws : List Written) (blanks : List Char) : Prop where
  plain : ∀ w ∈ ws, w.plainIn isUrlChar = true
  noContinuation : ∀ w ∈ ws, w.isContinuation = false
  ends : Written.Along Written.EndsBefore blanks ws
  blank : ∀ c ∈ blanks, isBlankChar c = true

end CssSyntax
