import CssSyntax.Scanner

/-!
# Token sources

The parser takes its tokens one at a time from a scanner or from a list. Behind its last token a list
gives the end of the input without a place in any document.
-/

namespace CssSyntax

/-- Where the tokens of a parser come from. -/
inductive Source where
  | scanner (scanner : Scanner)
  | tokens (tokens : List Token)

namespace Source

/-- Reads a token. -/
def next : Source → Read Source
  | scanner sc => ⟨sc.next.token, sc.next.records, .scanner sc.next.source⟩
  | tokens [] => ⟨⟨.eof, .origin⟩, [], .tokens []⟩
  | tokens (t :: ts) => ⟨t, [], .tokens ts⟩

/-- A bound on the number of tokens in front of the end of the input. -/
def remaining : Source → Nat
  | scanner sc => sc.rest.length
  | tokens ts => ts.length

/-- Every token but the end of the input leaves a smaller source. -/
theorem remaining_next_lt {src : Source} (h : src.next.token.kind ≠ .eof) :
    src.next.source.remaining < src.remaining := by
  match src with
  | scanner sc => exact Scanner.length_next_rest_lt h
  | tokens [] => exact absurd rfl h
  | tokens (t :: ts) => exact Nat.lt_succ_self ts.length

end Source

end CssSyntax
