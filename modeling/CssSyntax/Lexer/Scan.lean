import CssSyntax.Lexer.Numeric
import CssSyntax.Lexer.Url

/-!
# Cutting tokens

The next token of some bytes. `tokenStart` finds where it starts and `cut` says what it is; both
depend on the bytes alone. Main statement: every token but the end of the input takes at least one
byte (`length_scan_lt`).
-/

namespace CssSyntax.Lexer

open Byte

/-- The tokens that are always spelled in the same way. None of the spellings starts another. -/
def symbols : List (List UInt8 × Kind) :=
  [([0x3A], .colon), ([0x3B], .semicolon), ([0x7B], .lcurly), ([0x7D], .rcurly),
   ([0x5B], .lbracket), ([0x5D], .rbracket), ([0x28], .lparen), ([0x29], .rparen),
   ([0x2B], .plus), ([0x2F], .slash), ([0x2A], .star), ([0x3E], .greater), ([0x2C], .comma),
   ([0x3D], .equals), ([0x3C, 0x21, 0x2D, 0x2D], .cdo), ([0x2D, 0x2D, 0x3E], .cdc),
   ([0x7E, 0x3D], .includes), ([0x7C, 0x3D], .dashMatch)]

/-- The symbol at the front of some bytes, with its spelling. -/
def symbol? (s : List UInt8) : Option (List UInt8 × Kind) :=
  symbols.find? fun entry => entry.1.isPrefixOf s

/-- Whether blanks in front of these bytes never matter: `{`, `+`, `>` and `,` absorb them. -/
def absorbsBlanks (s : List UInt8) : Bool :=
  s.head?.any fun b => b == 0x7B || b == 0x2B || b == 0x3E || b == 0x2C

/-- The token of a name or of anything else that starts no other token. -/
def cutIdentLike (s : List UInt8) : Lexeme :=
  let run := readIdent s
  match ident? s with
  | some name =>
    match run.rest with
    | [] => { kind := .ident name, rest := [], runs := [run] }
    | b :: t =>
      if b = 0x28 then
        if name.toLower = "url" then
          let url := cutUrl t
          { url with runs := run :: url.runs }
        else { kind := .function name, rest := t, runs := [run] }
      else { kind := .ident name, rest := b :: t, runs := [run] }
  | none =>
    if s.head? = some dash then { kind := .minus, rest := s.drop 1, runs := [run] }
    else if startsIdent s then { kind := .invalid, rest := run.rest, runs := [run] }
    else { kind := .invalid, rest := s.drop 1, runs := [run] }

/-- The token at the front of some bytes. -/
def cut : List UInt8 → Lexeme
  | [] => { kind := .eof, rest := [], ended := true }
  | b :: s =>
    if isBlank b then
      { kind := .whitespace (Utf8.decode ((b :: s).takeWhile isBlank)), rest := skipBlanks s }
    else
      match symbol? (b :: s) with
      | some (spelling, kind) => .take kind spelling.length (b :: s)
      | none =>
        if isQuote b then cutQuoted b s
        else if b = 0x40 then cutAtKeyword s
        else if b = 0x23 then cutHash s
        else if b = 0x21 then cutImportant s
        else if startsNumber (b :: s) then cutNumeric (b :: s)
        else if b = 0x2E then .take .dot 1 (b :: s)
        else cutIdentLike (b :: s)

/-- What a token can be, by the byte that starts it. -/
theorem cut_elim {P : Lexeme → Prop} {b : UInt8} {s : List UInt8}
    (blanks : isBlank b = true →
      P { kind := .whitespace (Utf8.decode ((b :: s).takeWhile isBlank)), rest := skipBlanks s })
    (symbol : ∀ spelling kind, symbol? (b :: s) = some (spelling, kind) →
      P (.take kind spelling.length (b :: s)))
    (quoted : isQuote b = true → P (cutQuoted b s))
    (atKeyword : b = 0x40 → P (cutAtKeyword s))
    (hash : b = 0x23 → P (cutHash s))
    (important : b = 0x21 → P (cutImportant s))
    (numeric : startsNumber (b :: s) = true → P (cutNumeric (b :: s)))
    (dot : b = 0x2E → P (.take .dot 1 (b :: s)))
    (identLike : P (cutIdentLike (b :: s))) : P (cut (b :: s)) := by
  rw [cut]
  split
  · next h => exact blanks h
  · split
    · next spelling kind h => exact symbol spelling kind h
    · split
      · next h => exact quoted h
      · split
        · next h => exact atKeyword h
        · split
          · next h => exact hash h
          · split
            · next h => exact important h
            · split
              · next h => exact numeric h
              · split
                · next h => exact dot h
                · exact identLike

/-- Where the next token of some bytes starts. -/
def tokenStart (s : List UInt8) : List UInt8 :=
  let t := skipComments s
  if absorbsBlanks (skipBlanks t) then skipBlanks t else t

/-- The next token of some bytes. -/
def scan (s : List UInt8) : Lexeme :=
  cut (tokenStart s)

/-- A token starts at an end of the bytes. -/
theorem tokenStart_suffix (s : List UInt8) : tokenStart s <:+ s := by
  unfold tokenStart
  dsimp only
  split
  · exact (skipBlanks_suffix _).trans (skipComments_suffix s)
  · exact skipComments_suffix s

/-- A name, a function or a url leaves the end of the bytes. -/
theorem cutIdentLike_suffix (s : List UInt8) : (cutIdentLike s).rest <:+ s := by
  have h := readIdent_suffix s
  unfold cutIdentLike
  dsimp only
  split
  · split
    · exact List.nil_suffix
    · next b t hr =>
      rw [hr] at h
      have ht := (List.suffix_cons b t).trans h
      split
      · split
        · exact (cutUrl_suffix t).trans ht
        · exact ht
      · exact h
  · split
    · exact List.drop_suffix 1 s
    · split
      · exact h
      · exact List.drop_suffix 1 s

/-- What starts no other token takes a byte. -/
theorem length_cutIdentLike_lt (b : UInt8) (s : List UInt8) :
    (cutIdentLike (b :: s)).rest.length < (b :: s).length := by
  have hlt : startsIdent (b :: s) = true → (readIdent (b :: s)).rest.length < (b :: s).length :=
    length_readIdent_lt
  unfold cutIdentLike
  dsimp only
  split
  · next name hi =>
    have hstart : startsIdent (b :: s) = true := by
      unfold ident? at hi
      split at hi
      · next hc => exact (Bool.and_eq_true _ _ ▸ hc).1
      · cases hi
    have h := hlt hstart
    split
    · exact Nat.succ_pos _
    · next c t hr =>
      rw [hr] at h
      split
      · split
        · exact Nat.lt_of_le_of_lt (cutUrl_suffix t).length_le
            (Nat.lt_of_le_of_lt (List.suffix_cons c t).length_le h)
        · exact Nat.lt_of_le_of_lt (List.suffix_cons c t).length_le h
      · exact h
  · split
    · exact Nat.lt_succ_self _
    · split
      · next hstart => exact hlt hstart
      · exact Nat.lt_succ_self _

/-- A symbol takes a byte. -/
theorem symbol?_length_pos {s spelling : List UInt8} {kind : Kind}
    (h : symbol? s = some (spelling, kind)) : 0 < spelling.length := by
  have hm := List.mem_of_find?_eq_some h
  have hall : ∀ entry ∈ symbols, 0 < entry.1.length := by decide
  exact hall _ hm

/-- What follows some bytes and is shorter follows all but the first of them. -/
theorem suffix_of_length_lt {b : UInt8} {s t : List UInt8} (h : t <:+ b :: s)
    (hl : t.length < (b :: s).length) : t <:+ s := by
  rcases List.suffix_cons_iff.mp h with he | ht
  · rw [he] at hl
    exact absurd hl (Nat.lt_irrefl _)
  · exact ht

/-- A token at the front of some bytes takes the first of them. -/
theorem cut_suffix (b : UInt8) (s : List UInt8) : (cut (b :: s)).rest <:+ s := by
  apply cut_elim (P := fun lexeme => lexeme.rest <:+ s)
  case blanks => exact fun _ => skipBlanks_suffix s
  case symbol =>
    intro spelling kind h
    refine suffix_of_length_lt (List.drop_suffix _ _) ?_
    have hp := symbol?_length_pos h
    simp only [Lexeme.take, List.length_drop, List.length_cons]
    omega
  case quoted => exact fun _ => cutQuoted_suffix b s
  case atKeyword => exact fun _ => cutAtKeyword_suffix s
  case hash => exact fun _ => cutHash_suffix s
  case important => exact fun _ => cutImportant_suffix s
  case numeric =>
    intro h
    exact suffix_of_length_lt ((cutNumeric_suffix _).trans (List.drop_suffix _ _))
      (length_cutNumeric_lt h)
  case dot => exact fun _ => List.suffix_rfl
  case identLike => exact suffix_of_length_lt (cutIdentLike_suffix _) (length_cutIdentLike_lt b s)

/-- A token leaves the end of the bytes, also with what is skipped in front of it. -/
theorem scan_suffix (s : List UInt8) : (scan s).rest <:+ s := by
  have hs := tokenStart_suffix s
  unfold scan
  cases hc : tokenStart s with
  | nil => exact List.nil_suffix
  | cons b t =>
    rw [hc] at hs
    exact (cut_suffix b t).trans ((List.suffix_cons b t).trans hs)

/-- Every token but the end of the input takes a byte. -/
theorem length_scan_lt {s : List UInt8} (h : (scan s).kind ≠ .eof) :
    (scan s).rest.length < s.length := by
  have hs := (tokenStart_suffix s).length_le
  unfold scan at h ⊢
  cases hc : tokenStart s with
  | nil =>
    rw [hc] at h
    exact absurd rfl h
  | cons b t =>
    rw [hc] at hs
    exact Nat.lt_of_lt_of_le (Nat.lt_succ_of_le (cut_suffix b t).length_le) hs

end CssSyntax.Lexer
