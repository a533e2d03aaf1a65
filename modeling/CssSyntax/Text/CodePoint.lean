/-!
# Code points

A number names a character when it is a Unicode scalar value. Surrogates and numbers past the last
plane name none, and the cause says which number it was and where it stood in its sequence.
-/

namespace CssSyntax

/-- Why a number in a sequence of code points names no character. -/
inductive CodePointError where
  | surrogate (index codePoint : Nat)
  | outOfRange (index codePoint : Nat)
deriving DecidableEq, Repr

namespace CodePointError

/-- The position of the number in its sequence. -/
def index : CodePointError → Nat
  | surrogate i _ => i
  | outOfRange i _ => i

/-- The number that names no character. -/
def codePoint : CodePointError → Nat
  | surrogate _ n => n
  | outOfRange _ n => n

/-- A number in upper-case hexadecimal digits. -/
def hex (n : Nat) : String :=
  String.ofList ((Nat.toDigits 16 n).map Char.toUpper)

/-- A number in hexadecimal, filled up with zeros to four digits. -/
def hex4 (n : Nat) : String :=
  String.ofList (List.replicate (4 - (hex n).length) '0') ++ hex n

/-- The text of the cause. -/
def message : CodePointError → String
  | surrogate i n => "illegal surrogate U+" ++ hex4 n ++ " at index " ++ toString i
  | outOfRange i n =>
    "code point 0x" ++ hex n ++ " at index " ++ toString i ++ " is out of the unicode range"

end CodePointError

namespace CodePoint

/-- The character that a number names, as the entry at `index` of a sequence. -/
def encodeAt (index codePoint : Nat) : Except CodePointError Char :=
  if 0xD800 ≤ codePoint ∧ codePoint ≤ 0xDFFF then .error (.surrogate index codePoint)
  else if codePoint ≤ 0x10FFFF then .ok (Char.ofNat codePoint)
  else .error (.outOfRange index codePoint)

/-- The character that a single number names. -/
def encode (codePoint : Nat) : Except CodePointError Char :=
  encodeAt 0 codePoint

/-- The text that a sequence of numbers names; the first number that names no character is the
cause of failure for all of it. -/
def encodeAll (codePoints : List Nat) : Except CodePointError String :=
  String.ofList <$> codePoints.zipIdx.mapM fun (n, i) => encodeAt i n

end CodePoint

end CssSyntax
