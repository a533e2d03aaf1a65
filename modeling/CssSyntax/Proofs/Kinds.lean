import Mathlib.Data.List.Basic
import Mathlib.Tactic.SplitIfs
import CssSyntax.Lexer.Scan

/-!
# Kinds of tokens

Which kind a token is of follows from the byte that starts it (`kind_cut_elim`), whatever is read
with it and wherever it ends.
-/

namespace CssSyntax.Lexer

open Byte

/-- A symbol that is found is one of the table, and its spelling stands in front. -/
lemma symbol?_spec {s spelling : List UInt8} {kind : Kind}
    (h : symbol? s = some (spelling, kind)) : (spelling, kind) ∈ symbols ∧ spelling <+: s := by
  unfold symbol? at h
  have hfound := List.find?_some h
  exact ⟨List.mem_of_find?_eq_some h, List.isPrefixOf_iff_prefix.mp hfound⟩

/-- A url whose parameter is read is broken or carries the parameter. -/
lemma kind_closeUrl (parameter : Run) (s : List UInt8) :
    (closeUrl parameter s).kind = .invalid ∨ ∃ v, (closeUrl parameter s).kind = .url v := by
  unfold closeUrl
  dsimp only
  split
  · exact .inr ⟨_, rfl⟩
  · dsimp only
    split
    · exact .inr ⟨_, rfl⟩
    · exact .inl rfl

/-- Behind `url(` there is a url or a broken one. -/
lemma kind_cutUrl (s : List UInt8) :
    (cutUrl s).kind = .invalid ∨ ∃ v, (cutUrl s).kind = .url v := by
  unfold cutUrl
  split
  · exact .inl rfl
  · split
    · -- The parameter is a string, which the input or the closing quote ends, or else a newline.
      dsimp only
      split
      · exact kind_closeUrl _ _
      · split
        · exact kind_closeUrl _ _
        · exact .inl rfl
    · split
      · exact kind_closeUrl _ _
      · exact kind_closeUrl _ _

/-- Behind a quote there is a string or a broken one. -/
lemma kind_cutQuoted (quote : UInt8) (s : List UInt8) :
    (cutQuoted quote s).kind = .invalid ∨ ∃ v q, (cutQuoted quote s).kind = .string v q := by
  unfold cutQuoted
  dsimp only
  split
  · exact .inr ⟨_, _, rfl⟩
  · dsimp only
    split
    · exact .inr ⟨_, _, rfl⟩
    · exact .inl rfl

/-- The kinds of an at-keyword. -/
def atKeywords : List Kind :=
  [.atImport, .atPage, .atMedia, .atCharset, .atUnknown]

/-- Every name makes one of the at-keywords. -/
lemma atKeywordKind_mem (name : String) : atKeywordKind name ∈ atKeywords := by
  unfold atKeywordKind atKeywords
  dsimp only
  split_ifs <;> simp

/-- Behind `@` there is an at-keyword or nothing that could be one. -/
lemma kind_cutAtKeyword (s : List UInt8) :
    (cutAtKeyword s).kind = .invalid ∨ (cutAtKeyword s).kind ∈ atKeywords := by
  unfold cutAtKeyword
  split
  · next name _ => exact .inr (atKeywordKind_mem name)
  · exact .inl rfl

/-- A name is an identifier, a function or a url, and what starts nothing is a dash or invalid. -/
lemma kind_cutIdentLike (s : List UInt8) : (cutIdentLike s).kind ∈ [.minus, .invalid] ∨
    ∃ v, (cutIdentLike s).kind ∈ [.ident v, .function v, .url v] := by
  unfold cutIdentLike
  dsimp only
  split
  · next name _ =>
    split
    · exact .inr ⟨name, by simp⟩
    · next b t _ =>
      split
      · split
        · obtain h | ⟨v, h⟩ := kind_cutUrl t
          · exact .inl (by simp [h])
          · exact .inr ⟨v, by simp [h]⟩
        · exact .inr ⟨name, by simp⟩
      · exact .inr ⟨name, by simp⟩
  · split
    · exact .inl (by simp)
    · split
      · exact .inl (by simp)
      · exact .inl (by simp)

/-- What the kind of a token can be, by the byte that starts it. -/
lemma kind_cut_elim {P : Kind → Prop} {b : UInt8} {s : List UInt8}
    (blanks : isBlank b = true → ∀ v, P (.whitespace v))
    (symbol : ∀ entry ∈ symbols, entry.1 <+: b :: s → P entry.2)
    (string : isQuote b = true → ∀ v q, P (.string v q))
    (atKeyword : b = 0x40 → ∀ kind ∈ atKeywords, P kind)
    (hash : b = 0x23 → ∀ v, P (.hash v))
    (important : b = 0x21 → P .important)
    (numeric : startsNumber (b :: s) = true → ∀ v m, P (.numeric v m))
    (named : ∀ v, ∀ kind ∈ [Kind.ident v, .function v, .url v], P kind)
    (lone : ∀ kind ∈ [Kind.minus, .dot, .invalid], P kind) : P (cut (b :: s)).kind := by
  have hinvalid : P .invalid := lone _ (by simp)
  apply cut_elim (P := fun lexeme => P lexeme.kind)
  case blanks => exact fun hb => blanks hb _
  case symbol =>
    intro spelling kind h
    obtain ⟨hmem, hprefix⟩ := symbol?_spec h
    exact symbol _ hmem hprefix
  case quoted =>
    intro hb
    obtain h | ⟨v, q, h⟩ := kind_cutQuoted b s <;> rw [h]
    · exact hinvalid
    · exact string hb v q
  case atKeyword =>
    intro hb
    obtain h | h := kind_cutAtKeyword s
    · rwa [h]
    · exact atKeyword hb _ h
  case hash =>
    intro hb
    unfold cutHash
    split
    · exact hash hb _
    · exact hinvalid
  case important =>
    intro hb
    unfold cutImportant
    dsimp only
    split
    · exact important hb
    · exact hinvalid
  case numeric =>
    intro hb
    unfold cutNumeric
    dsimp only
    split
    · exact numeric hb _ _
    · split <;> exact numeric hb _ _
  case dot => exact fun _ => lone .dot (by simp)
  -- a name that is given up leaves a minus or an invalid token
  case identLike =>
    obtain h | ⟨v, h⟩ := kind_cutIdentLike (b :: s)
    · have hlone : [Kind.minus, .invalid] ⊆ [.minus, .dot, .invalid] := by simp
      exact lone _ (hlone h)
    · exact named v _ h

end CssSyntax.Lexer
