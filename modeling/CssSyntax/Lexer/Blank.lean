import CssSyntax.Text.Byte

/-!
# Blanks and comments

What stands between two tokens. A comment runs from `/*` to the next `*/`, or to the end of the input
when there is none.
-/

namespace CssSyntax.Lexer

open Byte

/-- The bytes behind all leading blanks. -/
def skipBlanks (s : List UInt8) : List UInt8 :=
  s.dropWhile isBlank

/-- Whether a comment starts here. -/
def opensComment (s : List UInt8) : Bool :=
  [0x2F, 0x2A].isPrefixOf s

/-- The bytes behind the end of the comment that holds the given bytes. -/
def closeComment : List UInt8 → List UInt8
  | [] => []
  | b :: s => if b = 0x2A && s.head? = some 0x2F then s.tail else closeComment s

/-- Skipping blanks leaves the end of the bytes. -/
theorem skipBlanks_suffix (s : List UInt8) : skipBlanks s <:+ s :=
  List.dropWhile_suffix isBlank

/-- What stands behind a comment is the end of the bytes. -/
theorem closeComment_suffix (s : List UInt8) : closeComment s <:+ s := by
  induction s with
  | nil => exact List.suffix_rfl
  | cons b s ih =>
    unfold closeComment
    split
    · exact (List.tail_suffix s).trans (List.suffix_cons b s)
    · exact ih.trans (List.suffix_cons b s)

/-- An opened comment takes at least its two opening bytes. -/
theorem length_closeComment_lt {s : List UInt8} (h : opensComment s = true) :
    (closeComment (s.drop 2)).length < s.length := by
  have hp : [0x2F, 0x2A] <+: s := List.isPrefixOf_iff_prefix.mp h
  have hl := hp.length_le
  have hc := (closeComment_suffix (s.drop 2)).length_le
  simp only [List.length_cons, List.length_nil, List.length_drop] at hl hc
  omega

/-- The bytes behind all leading comments. The blanks in front of a comment go with it, while those
behind the last comment stay. -/
def skipComments (s : List UInt8) : List UInt8 :=
  if h : opensComment (skipBlanks s) then
    have := length_closeComment_lt h
    have := (skipBlanks_suffix s).length_le
    skipComments (closeComment ((skipBlanks s).drop 2))
  else s
termination_by s.length

/-- Skipping comments leaves the end of the bytes. -/
theorem skipComments_suffix (s : List UInt8) : skipComments s <:+ s := by
  fun_induction skipComments s with
  | case1 s _ _ _ ih =>
    exact ih.trans ((closeComment_suffix _).trans ((List.drop_suffix 2 _).trans (skipBlanks_suffix s)))
  | case2 => exact List.suffix_rfl

end CssSyntax.Lexer
