import CssSyntax.Lexer.Lexeme

/-!
# Strings

A string runs to its closing quote. The end of the input closes it too, but a newline that is not
escaped breaks it.
-/

namespace CssSyntax.Lexer

open Byte

/-- Reads the pieces of a string behind its opening quote. -/
def readQuoted (quote : UInt8) (s : List UInt8) : Run :=
  readRun (fun b => b != quote && !isNewline b) true s

/-- The pieces of a string leave the end of the bytes. -/
theorem readQuoted_suffix (quote : UInt8) (s : List UInt8) : (readQuoted quote s).rest <:+ s :=
  readRun_suffix _ true s

/-- The token of a quote before the given bytes. A broken string takes the newline. -/
def cutQuoted (quote : UInt8) (s : List UInt8) : Lexeme :=
  let run := readQuoted quote s
  let string := Kind.string run.text (Char.ofNat quote.toNat)
  match run.rest with
  | [] => { kind := string, rest := [], ended := true, runs := [run] }
  | b :: t => { kind := if b = quote then string else .invalid, rest := t, runs := [run] }

/-- A string leaves the end of the bytes. -/
theorem cutQuoted_suffix (quote : UInt8) (s : List UInt8) : (cutQuoted quote s).rest <:+ s := by
  have h := readQuoted_suffix quote s
  unfold cutQuoted
  dsimp only
  split
  · exact List.nil_suffix
  · next b t hr =>
    rw [hr] at h
    exact (List.suffix_cons b t).trans h

end CssSyntax.Lexer
