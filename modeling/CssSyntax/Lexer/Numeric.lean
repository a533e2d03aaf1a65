import CssSyntax.Lexer.Name

/-!
# Numbers

A number is a run of digits with at most one point, and digits stand behind the point. A percent
sign or an identifier directly behind it says what it measures.
-/

namespace CssSyntax.Lexer

open Byte

/-- The fraction at the front of some bytes: a point with digits behind it. -/
def fraction : List UInt8 → List UInt8
  | [] => []
  | b :: s => if b = 0x2E && s.head?.any isDigit then b :: s.takeWhile isDigit else []

/-- The longest number at the front of some bytes. -/
def number (s : List UInt8) : List UInt8 :=
  s.takeWhile isDigit ++ fraction (s.dropWhile isDigit)

/-- Whether a number starts here. -/
def startsNumber (s : List UInt8) : Bool :=
  !(number s).isEmpty

/-- The token that starts with a number. -/
def cutNumeric (s : List UInt8) : Lexeme :=
  let value := Utf8.decode (number s)
  let t := s.drop (number s).length
  if t.head? = some 0x25 then { kind := .numeric value .percentage, rest := t.drop 1 }
  else
    match ident? t with
    | some unit =>
      { kind := .numeric value (.ofUnit unit)
        rest := (readIdent t).rest
        runs := [readIdent t] }
    | none => { kind := .numeric value .number, rest := t, runs := [readIdent t] }

/-- What stands behind the number holds the rest of the token that starts with it. -/
theorem cutNumeric_suffix (s : List UInt8) :
    (cutNumeric s).rest <:+ s.drop (number s).length := by
  unfold cutNumeric
  dsimp only
  split
  · exact List.drop_suffix _ _
  · split
    · exact readIdent_suffix _
    · exact List.suffix_rfl

/-- Where a number starts, a byte is taken. -/
theorem length_cutNumeric_lt {s : List UInt8} (h : startsNumber s = true) :
    (cutNumeric s).rest.length < s.length := by
  have hc := (cutNumeric_suffix s).length_le
  rw [List.length_drop] at hc
  have hn : 0 < (number s).length := by
    simpa [startsNumber, List.length_pos_iff] using h
  have hs : 0 < s.length := by
    cases s with
    | nil => cases h
    | cons => exact Nat.succ_pos _
  omega

end CssSyntax.Lexer
