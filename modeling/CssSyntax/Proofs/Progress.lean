import CssSyntax.Proofs.Boundary

/-!
# Progress

Every token takes at least the byte it starts with, and in front of that byte there is nothing but
blanks and closed comments (`tokenStart_cases`). So the tokens of a text and what separates them are
the whole text: no byte is passed twice, and none is lost. The end of the input comes behind blanks
and comments too, of which the last may be left open, and it stays where it is.

Main statement: what every token of a text takes, and what is left at its end (`tokens_cover_text`).
-/

namespace CssSyntax

open Lexer Byte

/-- Bytes that are blanks and closed comments. -/
def Separated (s : List UInt8) : Prop :=
  ∃ seps : List Separator, s = seps.flatMap Separator.bytes

/-- The bytes of a comment that is not closed. -/
def OpenComment (s : List UInt8) : Prop :=
  ∃ body, s = 0x2F :: 0x2A :: body ∧ ¬ [0x2A, 0x2F] <:+: body

namespace Separated

variable {s t : List UInt8}

/-- Nothing stands between two tokens that follow each other directly. -/
lemma nil : Separated [] :=
  ⟨[], rfl⟩

/-- Separators may stand one behind the other. -/
lemma append (hs : Separated s) (ht : Separated t) : Separated (s ++ t) := by
  obtain ⟨seps, rfl⟩ := hs
  obtain ⟨seps', rfl⟩ := ht
  exact ⟨seps ++ seps', List.flatMap_append.symm⟩

/-- A comment is a separator. -/
lemma comment {body : List UInt8} (h : ¬ [0x2A, 0x2F] <:+: body ++ [0x2A]) :
    Separated (0x2F :: 0x2A :: (body ++ [0x2A, 0x2F])) :=
  ⟨[.comment body h], (List.append_nil _).symm⟩

/-- Blanks are separators. -/
lemma of_blanks (h : ∀ b ∈ s, isBlank b = true) : Separated s := by
  induction s with
  | nil => exact nil
  | cons b s ih =>
    obtain ⟨hb, hs⟩ := List.forall_mem_cons.mp h
    have hfirst : Separated [b] := ⟨[.blank b hb], rfl⟩
    exact hfirst.append (ih hs)

end Separated

namespace Lexer

/-- What is skipped as blanks is separators. -/
lemma skipBlanks_separated (s : List UInt8) : ∃ gap, Separated gap ∧ s = gap ++ skipBlanks s :=
  ⟨s.takeWhile isBlank, .of_blanks fun _ => List.mem_takeWhile_imp,
    List.takeWhile_append_dropWhile.symm⟩

/-- A comment opens with its two bytes. -/
lemma opensComment_eq {s : List UInt8} (h : opensComment s = true) :
    s = 0x2F :: 0x2A :: s.drop 2 := by
  obtain ⟨t, rfl⟩ := List.isPrefixOf_iff_prefix.mp h
  rfl

/-- Comments are skipped together with blanks, or an open comment leaves nothing. -/
lemma skipComments_cases (s : List UInt8) :
    (∃ gap, Separated gap ∧ s = gap ++ skipComments s) ∨
      (skipComments s = [] ∧ ∃ gap tail, Separated gap ∧ OpenComment tail ∧ s = gap ++ tail) := by
  fun_induction skipComments s with
  | case1 s hopens _ _ ih =>
    obtain ⟨blanks, hblanks, hs⟩ := skipBlanks_separated s
    rw [opensComment_eq hopens] at hs
    generalize (skipBlanks s).drop 2 = t at hs ih
    subst hs
    obtain ⟨body, ht, hbody⟩ | ⟨hnil, hopen⟩ := closeComment_cases t
    · have hfront := hblanks.append (.comment hbody)
      have hs : blanks ++ 0x2F :: 0x2A :: t =
          blanks ++ 0x2F :: 0x2A :: (body ++ [0x2A, 0x2F]) ++ closeComment t := by
        conv_lhs => rw [ht]
        simp
      obtain ⟨gap, hgap, h⟩ | ⟨hend, gap, tail, hgap, htail, h⟩ := ih
      · refine .inl ⟨_, hfront.append hgap, ?_⟩
        rw [List.append_assoc, ← h, ← hs]
      · refine .inr ⟨hend, _, tail, hfront.append hgap, htail, ?_⟩
        rw [List.append_assoc, ← h, ← hs]
    · rw [hnil]
      exact .inr ⟨skipComments_of_not_opens rfl, blanks, _, hblanks, ⟨t, rfl, hopen⟩, rfl⟩
  | case2 s => exact .inl ⟨[], .nil, rfl⟩

/-- A token starts behind blanks and closed comments, or an open comment runs to the end. -/
lemma tokenStart_cases (s : List UInt8) :
    (∃ gap, Separated gap ∧ s = gap ++ tokenStart s) ∨
      (tokenStart s = [] ∧ ∃ gap tail, Separated gap ∧ OpenComment tail ∧ s = gap ++ tail) := by
  unfold tokenStart
  dsimp only
  obtain ⟨gap, hgap, hs⟩ | ⟨hend, hopen⟩ := skipComments_cases s
  · left
    split
    · obtain ⟨blanks, hblanks, ht⟩ := skipBlanks_separated (skipComments s)
      refine ⟨gap ++ blanks, hgap.append hblanks, ?_⟩
      rw [List.append_assoc, ← ht, ← hs]
    · exact ⟨gap, hgap, hs⟩
  · rw [hend]
    exact .inr ⟨rfl, hopen⟩

/-- Only where no byte is left the input ends. -/
lemma cut_eq_eof_iff {s : List UInt8} : (cut s).kind = .eof ↔ s = [] := by
  constructor
  · intro h
    cases s with
    | nil => rfl
    | cons b s =>
      cases hb : isBlank b with
      | true =>
        rw [cut, if_pos hb] at h
        cases h
      | false =>
        have hvisible := isVisible_cut s hb
        rw [h] at hvisible
        cases hvisible
  · rintro rfl
    rfl

end Lexer

namespace Scanner

variable {sc : Scanner}

/-- What the next token of a scanner takes of its text, if it starts at the given offset there: the
bytes behind the last one that was read, up to this offset, are blanks and closed comments, and the
byte at the offset is read with the token. -/
structure Takes (sc : Scanner) (offset : Nat) : Prop where
  location : sc.next.token.location.offset = sc.lines.start.offset + offset
  start : sc.read ≤ offset
  taken : offset < sc.next.source.read
  bound : sc.next.source.read ≤ sc.text.length + 1
  separated : Separated ((sc.text.take offset).drop sc.read)

/-- The input ends where no token starts. -/
lemma kind_eq_eof_iff : sc.next.token.kind = .eof ↔ tokenStart sc.rest = [] :=
  cut_eq_eof_iff

/-- A token in front of the end of the input takes the bytes from its start on. -/
lemma takes_of_ne_eof (h : sc.next.token.kind ≠ .eof) :
    sc.Takes (sc.text.length - (tokenStart sc.rest).length) := by
  have hne : tokenStart sc.rest ≠ [] := mt kind_eq_eof_iff.mpr h
  have hrest : sc.rest.length = sc.text.length - sc.read := List.length_drop
  have hpos := List.length_pos_iff.mpr hne
  have hle := (tokenStart_suffix sc.rest).length_le
  have hlt : (scan sc.rest).rest.length < (tokenStart sc.rest).length := by
    unfold scan
    cases ht : tokenStart sc.rest with
    | nil => exact absurd ht hne
    | cons b s => exact Nat.lt_succ_of_le (cut_suffix b s).length_le
  -- an open token counts the end of the text as read, one place behind the last byte
  have hread : sc.next.source.read =
      if (scan sc.rest).ended then sc.text.length + 1
      else sc.text.length - (scan sc.rest).rest.length := rfl
  refine ⟨rfl, by omega, ?_, ?_, ?_⟩
  · rw [hread]
    split <;> omega
  · rw [hread]
    split <;> omega
  · -- the bytes between the cursor and the token are those that are skipped
    obtain ⟨gap, hgap, hs⟩ | ⟨hend, -⟩ := tokenStart_cases sc.rest
    · have hlength := congrArg List.length hs
      rw [List.length_append] at hlength
      have htake : (sc.text.take (sc.text.length - (tokenStart sc.rest).length)).drop sc.read =
          sc.rest.take gap.length := by
        rw [List.drop_take]
        show sc.rest.take _ = _
        congr 1
        omega
      rw [htake, hs, List.take_left]
      exact hgap
    · exact absurd hend hne

/-- At the end of the input no byte is left but those of blanks and comments. -/
lemma rest_of_eof (h : sc.next.token.kind = .eof) :
    ∃ gap tail, sc.rest = gap ++ tail ∧ Separated gap ∧ (tail = [] ∨ OpenComment tail) := by
  obtain ⟨gap, hgap, hs⟩ | ⟨-, gap, tail, hgap, htail, hs⟩ := tokenStart_cases sc.rest
  · exact ⟨gap, _, hs, hgap, .inl (kind_eq_eof_iff.mp h)⟩
  · exact ⟨gap, tail, hs, hgap, .inr htail⟩

/-- The end of the input has the place behind the last byte. -/
lemma token_at_end (h : tokenStart sc.rest = []) :
    sc.next.token = ⟨.eof, sc.locationBefore 0⟩ := by
  rw [next, scan, h]
  rfl

/-- The end of the input is given again. -/
lemma next_of_eof (h : sc.next.token.kind = .eof) :
    sc.next.source.next.token = sc.next.token := by
  have hstart := kind_eq_eof_iff.mp h
  have hrest : sc.next.source.rest = [] := by
    rw [rest_next, scan, hstart]
    rfl
  have hend : tokenStart sc.next.source.rest = [] := by
    rw [hrest]
    exact List.suffix_nil.mp (tokenStart_suffix [])
  rw [token_at_end hend, token_at_end hstart]
  rfl

/-- Behind the end of the input there is nothing but this end. -/
lemma after_of_eof (h : sc.next.token.kind = .eof) (n : Nat) :
    (sc.after n).next.token = sc.next.token := by
  induction n with
  | zero => rfl
  | succ n ih =>
    have hn : (sc.after n).next.token.kind = .eof := by rw [ih, h]
    exact (next_of_eof hn).trans ih

/-- All tokens of a scanner start behind what is read already, each behind the one before it. -/
lemma tokens_increase (sc : Scanner) :
    (∀ t ∈ sc.tokens, sc.lines.start.offset + sc.read ≤ t.location.offset) ∧
      sc.tokens.Pairwise fun t u => t.location.offset < u.location.offset := by
  unfold tokens
  fun_induction reads sc with
  | case1 => exact ⟨List.forall_mem_nil _, .nil⟩
  | case2 sc h _ ih =>
    obtain ⟨hlower, hpairwise⟩ := ih
    have htakes := takes_of_ne_eof h
    have hlocation := htakes.location
    have hstart := htakes.start
    have htaken := htakes.taken
    have hlines : sc.next.source.lines = sc.lines := rfl
    rw [hlines] at hlower
    refine ⟨List.forall_mem_cons.mpr ⟨by omega, fun t ht => ?_⟩, .cons (fun t ht => ?_) hpairwise⟩
    · have := hlower t ht
      omega
    · have := hlower t ht
      omega

/-- There are no more tokens than bytes to read. -/
lemma length_tokens_le (sc : Scanner) : sc.tokens.length ≤ sc.rest.length := by
  unfold tokens
  fun_induction reads sc with
  | case1 => exact Nat.zero_le _
  | case2 sc h hlt ih =>
    rw [List.map_cons, List.length_cons]
    omega

end Scanner

/-- How a scanner goes on in its text. Either the next token starts behind blanks and closed comments
and takes the byte it starts with; or the input ends, and then nothing else than blanks and comments
is left, of which the last may be open, and every further token is the same end. -/
structure Scanner.Covers (sc : Scanner) : Prop where
  takes : sc.next.token.kind ≠ .eof → ∃ offset, sc.Takes offset
  leaves : sc.next.token.kind = .eof →
    ∃ gap tail, sc.rest = gap ++ tail ∧ Separated gap ∧ (tail = [] ∨ OpenComment tail)
  stays : sc.next.token.kind = .eof → ∀ n, (sc.after n).next.token = sc.next.token

open Scanner in
/-- No byte of a text is lost and every token makes progress, wherever the scanner stands in its text.
So the tokens of a text start one behind the other, and there are no more of them than bytes. -/
theorem tokens_cover_text (text : String) (start : Location) :
    (∀ n, ((ofText text start).after n).text = Utf8.bytes text ∧
      ((ofText text start).after n).lines.start = start ∧
      ((ofText text start).after n).Covers) ∧
    (tokenize text start).Pairwise (fun t u => t.location.offset < u.location.offset) ∧
    (tokenize text start).length ≤ (Utf8.bytes text).length := by
  refine ⟨fun n => ⟨text_after _ n, ?_, ?_⟩, ?_, ?_⟩
  · exact congrArg LineIndex.start (lines_after _ n)
  · exact ⟨fun h => ⟨_, takes_of_ne_eof h⟩, rest_of_eof, after_of_eof⟩
  · exact (tokens_increase (ofText text start)).2
  · exact length_tokens_le (ofText text start)

end CssSyntax
