import CssSyntax.Text.Byte
import CssSyntax.Text.CodePoint
import CssSyntax.Text.Utf8

/-!
# Pieces of names, strings and urls

Names, strings and urls are runs of pieces, and a piece is a byte that stands for itself or an
escape. A backslash makes the byte behind it plain, names a code point with up to six hexadecimal
digits, or joins two lines.
-/

namespace CssSyntax.Lexer

open Byte

/-- An escape that names no character, with the number of bytes that stand behind it. -/
structure DroppedEscape where
  error : CodePointError
  left : Nat
deriving DecidableEq, Repr

/-- A piece of a name, a string or a url. -/
inductive Piece where
  /-- A byte that stands for itself. -/
  | raw (byte : UInt8)
  /-- A backslash and a byte that it makes plain. -/
  | escaped (byte : UInt8)
  /-- The digits of a character's code point. -/
  | codePoint (char : Char)
  /-- The digits of a number that names no character; it contributes nothing. -/
  | dropped (escape : DroppedEscape)
  /-- A backslash before a newline or at the end of the input; it contributes nothing. -/
  | continuation
deriving DecidableEq, Repr

namespace Piece

/-- The bytes that a piece contributes. -/
def bytes : Piece → List UInt8
  | raw b => [b]
  | escaped b => [b]
  | codePoint c => String.utf8EncodeChar c
  | dropped _ => []
  | continuation => []

/-- The escape that was dropped, if the piece is one. -/
def dropped? : Piece → Option DroppedEscape
  | dropped e => some e
  | _ => none

end Piece

/-- The leading hexadecimal digits of an escape, six at most. -/
def escapeDigits (s : List UInt8) : List UInt8 :=
  (s.take 6).takeWhile isHexDigit

/-- The number that hexadecimal digits write. -/
def hexNumber (digits : List UInt8) : Nat :=
  digits.foldl (fun n b => n * 16 + (hexValue? b).getD 0) 0

/-- Whether a carriage return and a line feed stand here. -/
def startsCrlf (s : List UInt8) : Bool :=
  [0x0D, 0x0A].isPrefixOf s

/-- The bytes behind the blank that may end a numeric escape; a carriage return and a line feed
count as one. -/
def skipTerminator (s : List UInt8) : List UInt8 :=
  if startsCrlf s then s.drop 2
  else if s.head?.any isBlank then s.drop 1
  else s

/-- Reads an escape of which the backslash is read already. Where lines are joined, an escaped
carriage return takes a line feed behind it along. -/
def readEscape (joinsLines : Bool) (s : List UInt8) : Piece × List UInt8 :=
  match s with
  | [] => (.continuation, [])
  | b :: t =>
    if isHexDigit b then
      let digits := escapeDigits s
      let rest := skipTerminator (s.drop digits.length)
      match CodePoint.encode (hexNumber digits) with
      | .ok c => (.codePoint c, rest)
      | .error e => (.dropped ⟨e, rest.length⟩, rest)
    else if isNewline b then (.continuation, if joinsLines && startsCrlf s then s.drop 2 else t)
    else (.escaped b, t)

/-- Reads the piece that starts with a byte. -/
def readPiece (joinsLines : Bool) (b : UInt8) (s : List UInt8) : Piece × List UInt8 :=
  if b = backslash then readEscape joinsLines s else (.raw b, s)

/-- A terminator leaves the end of the bytes. -/
theorem skipTerminator_suffix (s : List UInt8) : skipTerminator s <:+ s := by
  unfold skipTerminator
  split
  · exact List.drop_suffix 2 s
  · split
    · exact List.drop_suffix 1 s
    · exact List.suffix_rfl

/-- An escape leaves the end of the bytes. -/
theorem readEscape_suffix (joinsLines : Bool) (s : List UInt8) :
    (readEscape joinsLines s).2 <:+ s := by
  unfold readEscape
  split
  · exact List.suffix_rfl
  · next b t =>
    split
    · have h := (skipTerminator_suffix ((b :: t).drop (escapeDigits (b :: t)).length)).trans
        (List.drop_suffix _ (b :: t))
      dsimp only
      split <;> exact h
    · split
      · dsimp only
        split
        · exact List.drop_suffix 2 (b :: t)
        · exact List.suffix_cons b t
      · exact List.suffix_cons b t

/-- A piece leaves the end of the bytes behind its first one. -/
theorem readPiece_suffix (joinsLines : Bool) (b : UInt8) (s : List UInt8) :
    (readPiece joinsLines b s).2 <:+ s := by
  unfold readPiece
  split
  · exact readEscape_suffix joinsLines s
  · exact List.suffix_rfl

/-- A run of pieces and the bytes behind it. -/
structure Run where
  pieces : List Piece
  rest : List UInt8
deriving DecidableEq, Repr

namespace Run

/-- The bytes that the pieces of a run contribute. -/
def bytes (r : Run) : List UInt8 :=
  r.pieces.flatMap Piece.bytes

/-- The text of a run. -/
def text (r : Run) : String :=
  Utf8.decode r.bytes

/-- The escapes that a run drops, in order. -/
def dropped (r : Run) : List DroppedEscape :=
  r.pieces.filterMap Piece.dropped?

end Run

/-- Reads pieces as long as the byte that starts the next one belongs to the run. -/
def readRun (belongs : UInt8 → Bool) (joinsLines : Bool) : List UInt8 → Run
  | [] => ⟨[], []⟩
  | b :: s =>
    if belongs b then
      have := (readPiece_suffix joinsLines b s).length_le
      let more := readRun belongs joinsLines (readPiece joinsLines b s).2
      ⟨(readPiece joinsLines b s).1 :: more.pieces, more.rest⟩
    else ⟨[], b :: s⟩
termination_by s => s.length
decreasing_by simp only [List.length_cons]; omega

/-- A run leaves the end of the bytes. -/
theorem readRun_suffix (belongs : UInt8 → Bool) (joinsLines : Bool) (s : List UInt8) :
    (readRun belongs joinsLines s).rest <:+ s := by
  fun_induction readRun belongs joinsLines s with
  | case1 => exact List.suffix_rfl
  | case2 b s _ _ _ ih =>
    exact ih.trans ((readPiece_suffix joinsLines b s).trans (List.suffix_cons b s))
  | case3 => exact List.suffix_rfl

/-- A run takes its first byte if that byte belongs to it. -/
theorem length_readRun_lt {belongs : UInt8 → Bool} (joinsLines : Bool) {b : UInt8}
    (s : List UInt8) (h : belongs b = true) :
    (readRun belongs joinsLines (b :: s)).rest.length < (b :: s).length := by
  have hp := (readPiece_suffix joinsLines b s).length_le
  have hr := (readRun_suffix belongs joinsLines (readPiece joinsLines b s).2).length_le
  unfold readRun
  simp only [h, if_true, List.length_cons]
  omega

end CssSyntax.Lexer
