import CssSyntax.Lexer.Blank
import CssSyntax.Lexer.Quoted

/-!
# Urls

The parameter of `url(` may be a string or go without quotes, with blanks on either side. The end of
the input closes the parenthesis; a byte that fits nowhere breaks the url and goes with it.
-/

namespace CssSyntax.Lexer

open Byte

/-- The url with the given parameter, of which everything up to the given bytes is read. -/
def closeUrl (parameter : Run) (s : List UInt8) : Lexeme :=
  let url := Kind.url parameter.text
  match s with
  | [] => { kind := url, rest := [], ended := true, runs := [parameter] }
  | b :: t => { kind := if b = 0x29 then url else .invalid, rest := t, runs := [parameter] }

/-- The token of a `url(` before the given bytes. -/
def cutUrl (s : List UInt8) : Lexeme :=
  match skipBlanks s with
  | [] => { kind := .invalid, rest := [], ended := true }
  | b :: t =>
    if isQuote b then
      let run := readQuoted b t
      match run.rest with
      | [] => closeUrl run []
      | c :: u =>
        if c = b then closeUrl run (skipBlanks u)
        else { kind := .invalid, rest := u, runs := [run] }
    else if isUrl b then
      let run := readRun isUrl false (b :: t)
      closeUrl run (skipBlanks run.rest)
    else closeUrl ⟨[], b :: t⟩ (b :: t)

/-- A url whose parameter is read leaves the end of the bytes behind this. -/
theorem closeUrl_suffix (parameter : Run) (s : List UInt8) : (closeUrl parameter s).rest <:+ s := by
  unfold closeUrl
  dsimp only
  split
  · exact List.suffix_rfl
  · exact List.suffix_cons _ _

/-- A url leaves the end of the bytes. -/
theorem cutUrl_suffix (s : List UInt8) : (cutUrl s).rest <:+ s := by
  have hs := skipBlanks_suffix s
  unfold cutUrl
  split
  · exact List.nil_suffix
  · next b t he =>
    rw [he] at hs
    split
    · have hq := (readQuoted_suffix b t).trans ((List.suffix_cons b t).trans hs)
      dsimp only
      split
      · exact (closeUrl_suffix _ _).trans List.nil_suffix
      · next c u hr =>
        rw [hr] at hq
        have hu := (List.suffix_cons c u).trans hq
        split
        · exact (closeUrl_suffix _ _).trans ((skipBlanks_suffix u).trans hu)
        · exact hu
    · split
      · exact (closeUrl_suffix _ _).trans
          ((skipBlanks_suffix _).trans ((readRun_suffix isUrl false (b :: t)).trans hs))
      · exact (closeUrl_suffix _ _).trans hs

end CssSyntax.Lexer
