import Mathlib.Data.List.DropRight
import CssSyntax.Scanner
import CssSyntax.Proofs.Kinds

/-!
# Blanks between two tokens

What stands between two tokens is a sequence of blanks and closed comments. Of its blanks only those
behind the last comment are still there when the next token is cut (`skipComments_separators`), so a
blank in front of a comment counts for nothing. Main statement: which sequences make a token of
blanks, and which of those that hold a blank make none (`whitespace_next_to_comments_iff`).
-/

namespace CssSyntax

open Lexer Byte

/-- A blank, or a comment that ends at its first `*/`. -/
inductive Separator where
  | blank (byte : UInt8) (blank : isBlank byte = true)
  | comment (body : List UInt8) (closed : ¬ [0x2A, 0x2F] <:+: body ++ [0x2A])

namespace Separator

/-- The bytes of a separator. -/
def bytes : Separator → List UInt8
  | blank b _ => [b]
  | comment body _ => 0x2F :: 0x2A :: (body ++ [0x2A, 0x2F])

/-- Whether a separator is a blank. -/
def isBlank : Separator → Bool
  | blank _ _ => true
  | comment _ _ => false

/-- A separator takes a byte. -/
lemma bytes_ne_nil (sep : Separator) : sep.bytes ≠ [] := by
  cases sep <;> exact List.cons_ne_nil _ _

end Separator

/-- Blanks in front of some bytes matter unless these start with `{`, `+`, `>` or `,`. -/
def BlanksMatter (v : List UInt8) : Prop :=
  ∀ b ∈ v.head?, b ∉ [0x7B, 0x2B, 0x3E, 0x2C]

/-- Whether a token is seen in the text, as neither blanks nor the end of the input are. -/
def Kind.isVisible : Kind → Bool
  | whitespace _ | eof => false
  | _ => true

namespace Lexer

/-- Blanks matter in front of what does not absorb them. -/
lemma blanksMatter_iff {v : List UInt8} : BlanksMatter v ↔ absorbsBlanks v = false := by
  cases v with
  | nil => simp [BlanksMatter, absorbsBlanks]
  | cons b v => simp [BlanksMatter, absorbsBlanks, and_assoc]

/-- A comment is closed in some bytes if it is by the first two of them or behind the first. -/
lemma infix_closing_cons {b : UInt8} {s : List UInt8} :
    [0x2A, 0x2F] <:+: b :: s ↔ (b = 0x2A ∧ s.head? = some 0x2F) ∨ [0x2A, 0x2F] <:+: s := by
  have hprefix : [0x2A, 0x2F] <+: b :: s ↔ b = 0x2A ∧ s.head? = some 0x2F := by
    rw [List.cons_prefix_cons, eq_comm]
    cases s with
    | nil => simp
    | cons c s => simp [List.cons_prefix_cons, eq_comm]
  rw [List.infix_cons_iff, hprefix]

/-- A comment ends at the first `*/` behind its start. -/
lemma closeComment_body {body : List UInt8} (w : List UInt8)
    (h : ¬ [0x2A, 0x2F] <:+: body ++ [0x2A]) : closeComment (body ++ 0x2A :: 0x2F :: w) = w := by
  induction body with
  | nil => simp [closeComment]
  | cons b body ih =>
    rw [List.cons_append, infix_closing_cons, not_or] at h
    have hopen : ¬ (b = 0x2A ∧ (body ++ 0x2A :: 0x2F :: w).head? = some 0x2F) := by
      rintro ⟨hb, hhead⟩
      refine h.1 ⟨hb, ?_⟩
      cases body with
      | nil => simp at hhead
      | cons c body => exact hhead
    rw [List.cons_append, closeComment, if_neg (by simpa using hopen), ih h.2]

/-- A comment is closed by the first `*/` behind its start, or runs to the end if there is none. -/
lemma closeComment_cases (s : List UInt8) :
    (∃ body, s = body ++ 0x2A :: 0x2F :: closeComment s ∧ ¬ [0x2A, 0x2F] <:+: body ++ [0x2A]) ∨
      (closeComment s = [] ∧ ¬ [0x2A, 0x2F] <:+: s) := by
  induction s with
  | nil => exact .inr ⟨rfl, by simp⟩
  | cons b s ih =>
    rw [closeComment]
    split
    · next h =>
      simp only [Bool.and_eq_true, decide_eq_true_eq] at h
      obtain ⟨t, rfl⟩ := List.head?_eq_some_iff.mp h.2
      exact .inl ⟨[], by rw [h.1]; rfl, by decide⟩
    · next h =>
      simp only [Bool.and_eq_true, decide_eq_true_eq] at h
      obtain ⟨body, hs, hbody⟩ | ⟨hnil, hs⟩ := ih
      · refine .inl ⟨b :: body, by rw [List.cons_append, ← hs], ?_⟩
        rw [List.cons_append, infix_closing_cons, not_or]
        refine ⟨fun ⟨hb, hhead⟩ => h ⟨hb, ?_⟩, hbody⟩
        rw [hs]
        cases body with
        | nil => simp at hhead
        | cons c body => exact hhead
      · exact .inr ⟨hnil, by rw [infix_closing_cons]; exact not_or.mpr ⟨h, hs⟩⟩

/-- A comment is skipped, and then what may follow it. -/
lemma skipComments_of_opens {s : List UInt8} (h : opensComment (skipBlanks s) = true) :
    skipComments s = skipComments (closeComment ((skipBlanks s).drop 2)) := by
  rw [skipComments, dif_pos h]

/-- Where no comment opens nothing is skipped, not even blanks. -/
lemma skipComments_of_not_opens {s : List UInt8} (h : opensComment (skipBlanks s) = false) :
    skipComments s = s := by
  rw [skipComments, dif_neg (Bool.eq_false_iff.mp h)]

/-- No blanks are skipped in front of a byte that is none. -/
lemma skipBlanks_eq_self {v : List UInt8} (hv : v.head?.any isBlank = false) :
    skipBlanks v = v := by
  cases v with
  | nil => rfl
  | cons b v => exact List.dropWhile_cons_of_neg (Bool.eq_false_iff.mp hv)

section Blanks

variable {bs : List UInt8} (hbs : ∀ b ∈ bs, isBlank b = true)
include hbs

/-- Blanks are skipped with those behind them. -/
lemma skipBlanks_append (w : List UInt8) : skipBlanks (bs ++ w) = skipBlanks w :=
  List.dropWhile_append_of_pos hbs

/-- A comment goes together with the blanks in front of it. -/
lemma skipComments_comment {body : List UInt8} (w : List UInt8)
    (h : ¬ [0x2A, 0x2F] <:+: body ++ [0x2A]) :
    skipComments (bs ++ ((Separator.comment body h).bytes ++ w)) = skipComments w := by
  have hskip : skipBlanks (bs ++ ((Separator.comment body h).bytes ++ w)) =
      0x2F :: 0x2A :: (body ++ 0x2A :: 0x2F :: w) := by
    rw [skipBlanks_append hbs, skipBlanks_eq_self rfl]
    simp [Separator.bytes]
  have hopens :
      opensComment (skipBlanks (bs ++ ((Separator.comment body h).bytes ++ w))) = true := by
    rw [hskip]
    rfl
  rw [skipComments_of_opens hopens, hskip]
  exact congrArg skipComments (closeComment_body w h)

variable {v : List UInt8} (hv : v.head?.any isBlank = false)
include hv

/-- Where no comment follows the blanks, they stay. -/
lemma skipComments_blanks (hc : opensComment v = false) : skipComments (bs ++ v) = bs ++ v := by
  apply skipComments_of_not_opens
  rw [skipBlanks_append hbs, skipBlanks_eq_self hv, hc]

/-- A token starts with the blanks in front of it, if these matter. -/
lemma tokenStart_of_skipComments {s : List UInt8} (h : skipComments s = bs ++ v) :
    tokenStart s = if absorbsBlanks v then v else bs ++ v := by
  unfold tokenStart
  dsimp only
  rw [h, skipBlanks_append hbs, skipBlanks_eq_self hv]

end Blanks

/-- The bytes of blanks are blanks. -/
lemma blanks_isBlank {seps : List Separator} (h : ∀ sep ∈ seps, sep.isBlank = true) :
    ∀ b ∈ seps.flatMap Separator.bytes, isBlank b = true := by
  intro b hb
  obtain ⟨sep, hsep, hb⟩ := List.mem_flatMap.mp hb
  cases sep with
  | blank c hc =>
    rw [List.mem_singleton.mp hb]
    exact hc
  | comment => cases h _ hsep

/-- Only the blanks behind the last comment are left when the comments are skipped. -/
lemma skipComments_separators (seps : List Separator) (w : List UInt8) :
    skipComments (seps.flatMap Separator.bytes ++ w) =
      skipComments ((seps.rtakeWhile Separator.isBlank).flatMap Separator.bytes ++ w) := by
  -- From the last separator on: what follows a blank or a comment is arbitrary.
  induction seps using List.reverseRecOn generalizing w with
  | nil => rw [List.rtakeWhile_nil]
  | append_singleton seps sep ih =>
    rw [List.flatMap_append, List.append_assoc, ih]
    cases sep with
    | blank b hb =>
      rw [List.rtakeWhile_concat_pos _ _ _ rfl, List.flatMap_append, List.append_assoc]
    | comment body h =>
      rw [List.rtakeWhile_concat_neg _ _ _ Bool.false_ne_true]
      have hbs := blanks_isBlank fun _ hsep => List.mem_rtakeWhile_imp (l := seps) hsep
      simpa using skipComments_comment hbs w h

/-- A token that starts with a blank takes all blanks. -/
lemma cut_blanks {bs v : List UInt8} (hne : bs ≠ []) (hbs : ∀ b ∈ bs, isBlank b = true)
    (hv : v.head?.any isBlank = false) : (cut (bs ++ v)).kind = .whitespace (Utf8.decode bs) := by
  have htake : (bs ++ v).takeWhile isBlank = bs := by
    have hdrop : v.takeWhile isBlank = [] := by
      cases v with
      | nil => rfl
      | cons b v => exact List.takeWhile_cons_of_neg (Bool.eq_false_iff.mp hv)
    rw [List.takeWhile_append_of_pos hbs, hdrop, List.append_nil]
  cases bs with
  | nil => exact absurd rfl hne
  | cons b bs =>
    rw [List.cons_append] at htake ⊢
    rw [cut, if_pos (hbs b List.mem_cons_self), htake]

/-- What starts with something else than a blank is a token that is seen. -/
lemma isVisible_cut {b : UInt8} (v : List UInt8) (hb : isBlank b = false) :
    (cut (b :: v)).kind.isVisible = true := by
  apply kind_cut_elim (P := fun kind => kind.isVisible = true)
  case blanks => exact fun h => absurd h (Bool.eq_false_iff.mp hb)
  case symbol =>
    have hall : ∀ entry ∈ symbols, entry.2.isVisible = true := by decide
    exact fun entry hmem _ => hall entry hmem
  case atKeyword => exact fun _ => by decide
  case named => simp [Kind.isVisible]
  case lone => decide
  case string | hash | important | numeric => intros; rfl

/-- Only a token that starts with a blank is made of blanks. -/
lemma isWhitespace_cut {v : List UInt8} (hv : v.head?.any isBlank = false) :
    (cut v).kind.isWhitespace = false := by
  cases v with
  | nil => rfl
  | cons b v =>
    have hvisible := isVisible_cut v hv
    cases hk : (cut (b :: v)).kind with
    | whitespace =>
      rw [hk] at hvisible
      cases hvisible
    | _ => rfl

end Lexer

section Between

variable {sc : Scanner} {seps : List Separator} {v : List UInt8}
  (hrest : sc.rest = seps.flatMap Separator.bytes ++ v) (hv : v.head?.any isBlank = false)
  (hc : opensComment v = false)
include hrest hv hc

/-- The token behind some separators starts with the blanks behind the last comment, if these
matter. -/
lemma Scanner.next_kind_separators :
    sc.next.token.kind = (cut (if absorbsBlanks v then v else
      (seps.rtakeWhile Separator.isBlank).flatMap Separator.bytes ++ v)).kind := by
  have hbs := blanks_isBlank fun _ hsep => List.mem_rtakeWhile_imp (l := seps) hsep
  have hskip : skipComments sc.rest =
      (seps.rtakeWhile Separator.isBlank).flatMap Separator.bytes ++ v := by
    rw [hrest, skipComments_separators, skipComments_blanks hbs hv hc]
  change (cut (tokenStart sc.rest)).kind = _
  rw [tokenStart_of_skipComments hbs hv hskip]

/-- Behind blanks the next token holds those since the last comment, if they matter. -/
lemma Scanner.next_kind_of_blanks (hne : seps ≠ []) (hlast : (seps.getLast hne).isBlank = true)
    (hmatter : BlanksMatter v) : sc.next.token.kind =
      .whitespace (Utf8.decode ((seps.rtakeWhile Separator.isBlank).flatMap Separator.bytes)) := by
  have hbs := blanks_isBlank fun _ hsep => List.mem_rtakeWhile_imp (l := seps) hsep
  have hfound : (seps.rtakeWhile Separator.isBlank).flatMap Separator.bytes ≠ [] := by
    intro hnil
    have hnone : seps.rtakeWhile Separator.isBlank = [] :=
      List.eq_nil_iff_forall_not_mem.mpr fun sep hsep =>
        sep.bytes_ne_nil (List.flatMap_eq_nil_iff.mp hnil sep hsep)
    exact List.rtakeWhile_eq_nil_iff.mp hnone hne hlast
  rw [Scanner.next_kind_separators hrest hv hc, blanksMatter_iff.mp hmatter]
  exact cut_blanks hfound hbs hv

/-- Behind a comment, or where blanks do not matter, the next token is no blank. -/
lemma Scanner.next_not_whitespace (hne : seps ≠ [])
    (h : (seps.getLast hne).isBlank = false ∨ ¬ BlanksMatter v) :
    sc.next.token.kind.isWhitespace = false := by
  rw [Scanner.next_kind_separators hrest hv hc]
  split
  · exact isWhitespace_cut hv
  · next habsorbs =>
    have hmatter : BlanksMatter v := blanksMatter_iff.mpr (Bool.eq_false_iff.mpr habsorbs)
    have hlast := h.resolve_right (not_not.mpr hmatter)
    have hnone : seps.rtakeWhile Separator.isBlank = [] :=
      List.rtakeWhile_eq_nil_iff.mpr fun _ => Bool.eq_false_iff.mp hlast
    rw [hnone]
    exact isWhitespace_cut hv

end Between

/-- Between two tokens, blanks make a token of their own if and only if the last separator is a
blank and the blanks matter to what follows; the token holds the blanks behind the last comment. So
blanks get lost exactly where a comment follows the last of them and something else than `{`, `+`,
`>` or `,` follows the comment. -/
theorem whitespace_next_to_comments_iff (sc : Scanner) (seps : List Separator) (v : List UInt8)
    (hne : seps ≠ []) (hrest : sc.rest = seps.flatMap Separator.bytes ++ v)
    (hv : v.head?.any isBlank = false) (hc : opensComment v = false) :
    (sc.next.token.kind.isWhitespace = true ↔
      (seps.getLast hne).isBlank = true ∧ BlanksMatter v) ∧
    (sc.next.token.kind.isWhitespace = true → sc.next.token.kind =
      .whitespace (Utf8.decode ((seps.rtakeWhile Separator.isBlank).flatMap Separator.bytes))) ∧
    ((sc.next.token.kind.isWhitespace = true ↔
        (∃ sep ∈ seps, sep.isBlank = true) ∧ BlanksMatter v) ↔
      ¬ ((∃ sep ∈ seps, sep.isBlank = true) ∧ (seps.getLast hne).isBlank = false ∧
        BlanksMatter v)) := by
  have hiff : sc.next.token.kind.isWhitespace = true ↔
      (seps.getLast hne).isBlank = true ∧ BlanksMatter v := by
    constructor
    · intro h
      by_contra hno
      rw [not_and_or, Bool.not_eq_true] at hno
      rw [Scanner.next_not_whitespace hrest hv hc hne hno] at h
      cases h
    · rintro ⟨hlast, hmatter⟩
      rw [Scanner.next_kind_of_blanks hrest hv hc hne hlast hmatter]
      rfl
  refine ⟨hiff, ?_, ?_⟩
  · intro h
    obtain ⟨hlast, hmatter⟩ := hiff.mp h
    exact Scanner.next_kind_of_blanks hrest hv hc hne hlast hmatter
  · -- a blank at the end is one among all, so the conditions differ only if a comment is last
    have hmem : (seps.getLast hne).isBlank = true → ∃ sep ∈ seps, sep.isBlank = true :=
      fun h => ⟨_, List.getLast_mem hne, h⟩
    rw [hiff]
    cases hlast : (seps.getLast hne).isBlank with
    | false => simp
    | true => simp [hmem hlast]

/-- The separators of ` /* x */` and a tab. -/
def commentBeforeTab : List Separator :=
  [.blank 0x20 rfl, .comment [0x20, 0x78, 0x20] (by decide), .blank 0x09 rfl]

/-- In `a /* x */b` with a tab in front of the `b`, the tab is the token behind the `a`. -/
theorem whitespace_next_to_comments_iff_tab :
    (Scanner.ofText "a /* x */\tb" .origin).next.source.rest =
      commentBeforeTab.flatMap Separator.bytes ++ [0x62] ∧
    (Scanner.ofText "a /* x */\tb" .origin).next.source.next.token.kind =
      .whitespace (Utf8.decode [0x09]) := by
  have hrest : (Scanner.ofText "a /* x */\tb" .origin).next.source.rest =
      commentBeforeTab.flatMap Separator.bytes ++ [0x62] := by decide +kernel
  obtain ⟨hiff, hkind, -⟩ := whitespace_next_to_comments_iff _ commentBeforeTab [0x62]
    (List.cons_ne_nil _ _) hrest rfl rfl
  exact ⟨hrest, hkind (hiff.mpr ⟨rfl, blanksMatter_iff.mpr rfl⟩)⟩

/-- The separators of ` /**/`. -/
def blankBeforeComment : List Separator :=
  [.blank 0x20 rfl, .comment [] (by decide)]

/-- In `a /**/b` the blank behind the `a` is lost. -/
theorem whitespace_lost_before_comment :
    (Scanner.ofText "a /**/b" .origin).next.source.rest =
      blankBeforeComment.flatMap Separator.bytes ++ [0x62] ∧
    ¬ ((Scanner.ofText "a /**/b" .origin).next.source.next.token.kind.isWhitespace = true ↔
      (∃ sep ∈ blankBeforeComment, sep.isBlank = true) ∧ BlanksMatter [0x62]) := by
  have hkind : (Scanner.ofText "a /**/b" .origin).next.source.next.token.kind = .ident "b" := by
    decide +kernel
  refine ⟨by decide +kernel, fun h => ?_⟩
  have hblank : (∃ sep ∈ blankBeforeComment, sep.isBlank = true) ∧ BlanksMatter [0x62] :=
    ⟨⟨_, List.mem_cons_self, rfl⟩, blanksMatter_iff.mpr rfl⟩
  have hwhitespace := h.mpr hblank
  rw [hkind] at hwhitespace
  cases hwhitespace

end CssSyntax
