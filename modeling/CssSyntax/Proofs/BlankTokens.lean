import Mathlib.Data.List.Chain
import CssSyntax.Proofs.Extent

/-!
# Tokens of blanks

A token of blanks takes all blanks up to the next byte that is none, and it is cut only where no
comment follows them and where they matter (`endsBlanks_of_scan`). So there is one such token at most
between two others, whatever separates these in the text, and none in front of what absorbs blanks.
Main statement: how such tokens stand in the sequence of all (`blanks_isolated`).
-/

namespace CssSyntax

open Byte Utf8 Lexer

/-- Whether a token can stand behind blanks. Those that absorb them cannot, nor can more blanks. -/
def Kind.followsBlanks : Kind → Bool
  | whitespace _ | lcurly | plus | greater | comma => false
  | _ => true

namespace Lexer

/-- Bytes that end the blanks in front of them and leave these as they are. -/
structure EndsBlanks (v : List UInt8) : Prop where
  noBlank : v.head?.any isBlank = false
  noComment : opensComment v = false
  matter : BlanksMatter v

/-- Behind blanks that are skipped stands no further one. -/
lemma head?_skipBlanks (s : List UInt8) : (skipBlanks s).head?.any isBlank = false := by
  have hstop := List.head?_dropWhile_not isBlank s
  rw [skipBlanks]
  cases hs : (s.dropWhile isBlank).head? with
  | none => rfl
  | some b =>
    rw [hs] at hstop
    simpa using hstop

/-- No comment is left behind the last one and the blanks that follow it. -/
lemma opensComment_skipComments (s : List UInt8) :
    opensComment (skipBlanks (skipComments s)) = false := by
  fun_induction skipComments s with
  | case1 _ _ _ _ ih => exact ih
  | case2 _ h => exact Bool.eq_false_iff.mpr h

/-- A token of blanks takes all of them. -/
lemma cut_of_isWhitespace {s : List UInt8} (h : (cut s).kind.isWhitespace = true) :
    cut s = { kind := .whitespace (decode (s.takeWhile isBlank)), rest := skipBlanks s } ∧
      s.takeWhile isBlank ≠ [] := by
  cases s with
  | nil => cases h
  | cons b s =>
    by_cases hb : isBlank b = true
    · have hskip : skipBlanks (b :: s) = skipBlanks s := List.dropWhile_cons_of_pos hb
      rw [cut, if_pos hb, hskip, List.takeWhile_cons_of_pos hb]
      exact ⟨rfl, List.cons_ne_nil _ _⟩
    · have hnot := isWhitespace_cut (v := b :: s) (Bool.eq_false_iff.mpr hb)
      exact absurd h (Bool.eq_false_iff.mp hnot)

/-- Behind a token of blanks there is no further blank, no comment, and nothing that would have
absorbed them. -/
lemma endsBlanks_of_scan {s : List UInt8} (h : (scan s).kind.isWhitespace = true) :
    EndsBlanks (scan s).rest := by
  have hhead := head?_skipBlanks (skipComments s)
  have habsorbs : absorbsBlanks (skipBlanks (skipComments s)) = false := by
    by_contra hno
    rw [scan, tokenStart, if_pos (Bool.not_eq_false _ ▸ hno), isWhitespace_cut hhead] at h
    cases h
  have hrest : (scan s).rest = skipBlanks (skipComments s) := by
    have hstart : tokenStart s = skipComments s := if_neg (Bool.eq_false_iff.mp habsorbs)
    rw [scan, hstart] at h ⊢
    rw [(cut_of_isWhitespace h).1]
  rw [hrest]
  exact ⟨hhead, opensComment_skipComments s, blanksMatter_iff.mpr habsorbs⟩

namespace EndsBlanks

variable {v : List UInt8} (h : EndsBlanks v)
include h

/-- Nothing is skipped in front of the next token. -/
lemma tokenStart_eq : tokenStart v = v := by
  have hskip : skipComments v = v := by
    apply skipComments_of_not_opens
    rw [skipBlanks_eq_self h.noBlank, h.noComment]
  rw [tokenStart, hskip, skipBlanks_eq_self h.noBlank, ite_self]

/-- What ends blanks starts a token that may follow them. -/
lemma followsBlanks_cut : (cut v).kind.followsBlanks = true := by
  cases v with
  | nil => rfl
  | cons b v =>
    apply kind_cut_elim (P := fun kind => kind.followsBlanks = true)
    case blanks => exact fun hb => absurd hb (Bool.eq_false_iff.mp h.noBlank)
    case symbol =>
      intro entry hmem hprefix
      -- What absorbs blanks is known by its first byte.
      have hall : ∀ entry ∈ symbols, entry.2.followsBlanks = true ∨
          (entry.1 ≠ [] ∧ absorbsBlanks entry.1 = true) := by decide
      refine (hall entry hmem).resolve_right fun ⟨hne, habsorbs⟩ => ?_
      obtain ⟨c, spelling, hspelling⟩ := List.exists_cons_of_ne_nil hne
      rw [hspelling, List.cons_prefix_cons] at hprefix
      rw [hspelling, hprefix.1] at habsorbs
      exact Bool.false_ne_true ((blanksMatter_iff.mp h.matter).symm.trans habsorbs)
    case atKeyword => exact fun _ => by decide
    case named => simp [Kind.followsBlanks]
    case lone => decide
    case string | hash | important | numeric => intros; rfl

end EndsBlanks

/-- The text of some blanks consists of blanks, and there are some of them. -/
lemma blanks_decode {w : List UInt8} (hne : w ≠ []) (hw : ∀ b ∈ w, isBlank b = true) :
    decode w ≠ "" ∧ ∀ c ∈ (decode w).toList, isBlankChar c = true := by
  have hbytes : bytes (decode w) = w := bytes_decode_ascii fun b hb => isBlank_ascii (hw b hb)
  refine ⟨fun hempty => hne ?_, fun c hc => ?_⟩
  · rw [← hbytes, hempty]
    rfl
  · by_contra hno
    obtain ⟨lead, rest, henc⟩ := exists_encodes c
    have hlead : lead ∈ String.utf8EncodeChar c := henc.bytes ▸ List.mem_cons_self
    have hmem : lead ∈ w := hbytes ▸ List.mem_flatMap.mpr ⟨c, hc, hlead⟩
    have hnot := matches_blank.not_bytes isBlank_ascii (Bool.not_eq_true _ ▸ hno) lead hlead
    exact Bool.false_ne_true (hnot.symm.trans (hw lead hmem))

end Lexer

/-- How blanks stand in a text. There are some, and nothing else is in their token; the next token
starts where they end, and is none that could do without them. -/
structure Scanner.Isolates (sc : Scanner) (blanks : String) : Prop where
  ne_empty : blanks ≠ ""
  blank : ∀ c ∈ blanks.toList, isBlankChar c = true
  adjacent : sc.next.source.position = sc.next.source.read
  follows : sc.next.source.next.token.kind.followsBlanks = true

namespace Scanner

variable {sc : Scanner}

/-- Where nothing is skipped, the next token starts directly behind the last byte that was read. -/
lemma position_eq_read (hstart : tokenStart sc.rest = sc.rest) (hread : sc.read ≤ sc.text.length) :
    sc.position = sc.read := by
  have hlength : sc.rest.length = sc.text.length - sc.read := List.length_drop
  rw [position_eq, hstart, hlength, Nat.sub_sub_self hread]

/-- A token of blanks is isolated. -/
lemma isolates {blanks : String} (h : sc.next.token.kind = .whitespace blanks) :
    sc.Isolates blanks := by
  have hwhitespace : sc.next.token.kind.isWhitespace = true := congrArg Kind.isWhitespace h
  have hends : EndsBlanks sc.next.source.rest := by
    rw [rest_next]
    exact endsBlanks_of_scan hwhitespace
  rw [kind_next] at hwhitespace h
  obtain ⟨hcut, hne⟩ := cut_of_isWhitespace hwhitespace
  have hread : sc.next.source.read ≤ sc.text.length := by
    rw [read_next, hcut]
    exact Nat.sub_le _ _
  rw [hcut] at h
  cases h
  obtain ⟨hempty, hblank⟩ := blanks_decode hne fun _ => List.mem_takeWhile_imp
  refine ⟨hempty, hblank, position_eq_read hends.tokenStart_eq hread, ?_⟩
  rw [kind_next, ahead_eq, hends.tokenStart_eq]
  exact hends.followsBlanks_cut

/-- The first token of a scanner is the next one. -/
lemma head?_tokens (sc : Scanner) : ∀ t ∈ sc.tokens.head?, t = sc.next.token := by
  rw [tokens, reads]
  split
  · rintro _ ⟨⟩
  · rintro _ ⟨⟩
    rfl

/-- No token of a scanner that could do without blanks stands behind a token of them. -/
lemma isChain_tokens (sc : Scanner) : sc.tokens.IsChain fun t u =>
    t.kind.isWhitespace = true → u.kind.followsBlanks = true := by
  unfold tokens
  fun_induction reads sc with
  | case1 => exact .nil
  | case2 sc _ _ ih =>
    refine List.isChain_cons.mpr ⟨fun u hu hwhitespace => ?_, ih⟩
    rw [head?_tokens _ u hu]
    cases hkind : sc.next.token.kind with
    | whitespace => exact (isolates hkind).follows
    | _ =>
      rw [hkind] at hwhitespace
      cases hwhitespace

end Scanner

/-- Tokens of blanks are isolated: wherever a scanner cuts one, it holds blanks only, and the next
token starts directly behind them and is neither a further token of blanks nor one of `{`, `+`, `>` and
`,`. So no two neighbours in the sequence of all tokens are of this kind. -/
theorem blanks_isolated (sc : Scanner) :
    (∀ n blanks, (sc.after n).next.token.kind = .whitespace blanks →
      (sc.after n).Isolates blanks) ∧
    sc.tokens.IsChain fun t u => t.kind.isWhitespace = true → u.kind.followsBlanks = true :=
  ⟨fun _ _ => Scanner.isolates, sc.isChain_tokens⟩

/-- Of the blanks around some comments those behind the last make one token, and none if a comma
follows. -/
theorem blanks_isolated_comments :
    ((Scanner.ofText "a /**/\t/**/ \n/b" .origin).after 1).Isolates " \n" ∧
    (tokenize "a /**/\t/**/ \n,b" .origin).map Token.kind = [.ident "a", .comma, .ident "b"] := by
  have hkind : ((Scanner.ofText "a /**/\t/**/ \n/b" .origin).after 1).next.token.kind =
      .whitespace " \n" := by decide +kernel
  exact ⟨(blanks_isolated _).1 1 _ hkind, by decide +kernel⟩

end CssSyntax
