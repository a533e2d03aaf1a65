/-!
# Byte classes

Text is scanned as the bytes of its UTF-8 form. Every byte above `0x7F` belongs to a character
outside ASCII, and such characters may stand in any name, so the classes below decide on bytes alone.
-/

namespace CssSyntax.Byte

/-- The byte of `-`. -/
def dash : UInt8 := 0x2D

/-- The byte of the backslash, which starts an escape. -/
def backslash : UInt8 := 0x5C

/-- Line feed, form feed and carriage return end a line inside a string. -/
def isNewline (b : UInt8) : Bool :=
  b == 0x0A || b == 0x0C || b == 0x0D

/-- Blanks are the newlines, the tab and the space. -/
def isBlank (b : UInt8) : Bool :=
  b == 0x09 || b == 0x20 || isNewline b

/-- The digits `0` to `9`. -/
def isDigit (b : UInt8) : Bool :=
  0x30 ≤ b && b ≤ 0x39

/-- The letters `A` to `Z` and `a` to `z`. -/
def isLetter (b : UInt8) : Bool :=
  (0x41 ≤ b && b ≤ 0x5A) || (0x61 ≤ b && b ≤ 0x7A)

/-- The value of a hexadecimal digit in either case. -/
def hexValue? (b : UInt8) : Option Nat :=
  if isDigit b then some (b.toNat - 0x30)
  else if 0x41 ≤ b && b ≤ 0x46 then some (b.toNat - 0x37)
  else if 0x61 ≤ b && b ≤ 0x66 then some (b.toNat - 0x57)
  else none

/-- Whether a byte is a hexadecimal digit. -/
def isHexDigit (b : UInt8) : Bool :=
  (hexValue? b).isSome

/-- Bytes that can start an identifier: a character outside ASCII, a letter, `_`, `-`, an escape. -/
def isNameStart (b : UInt8) : Bool :=
  0x7F < b || isLetter b || b == 0x5F || b == dash || b == backslash

/-- Bytes that can stand in a name. -/
def isName (b : UInt8) : Bool :=
  isNameStart b || isDigit b

/-- Bytes that can stand in a url without quotes: a character outside ASCII, one of `! # $ % &`, or
anything from `*` to `~`, the backslash included. -/
def isUrl (b : UInt8) : Bool :=
  0x7F < b || (0x2A ≤ b && b ≤ 0x7E) || b == 0x21 || (0x23 ≤ b && b ≤ 0x26)

/-- The two quotes that enclose strings. -/
def isQuote (b : UInt8) : Bool :=
  b == 0x22 || b == 0x27

end CssSyntax.Byte
