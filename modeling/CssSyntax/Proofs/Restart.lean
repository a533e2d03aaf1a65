import CssSyntax.Proofs.Boundary
import CssSyntax.Proofs.Locations

/-!
# Scanning the rest of a text

What a scanner has read takes no part in what it reads next. A scanner that stands between two
characters of a text goes on as a scanner at the start of the characters that are left, and only has
to be told where the first of them stands. `Scanner.Resumes` relates the two: the same bytes are left,
and each of these stands at the same place in both texts. Every token keeps it
(`Scanner.Resumes.next`).

Main statement: all tokens behind a boundary, with their places, are those of what is left
(`scanning_depends_on_rest`).
-/

namespace CssSyntax

open Lexer

namespace Utf8

/-- The bytes of two texts are those of the first and then those of the second. -/
lemma bytes_append (s t : String) : bytes (s ++ t) = bytes s ++ bytes t := by
  rw [bytes, String.toList_append, List.flatMap_append]
  rfl

/-- Texts with the same bytes are the same. -/
lemma bytes_inj {s t : String} (h : bytes s = bytes t) : s = t := by
  have hs : decode (bytes s) = s := (decode_encode s.toList).trans String.ofList_toList
  have ht : decode (bytes t) = t := (decode_encode t.toList).trans String.ofList_toList
  rw [← hs, h, ht]

/-- Characters at the end of a text follow other characters. -/
lemma exists_append_of_suffix {text rest : String} (h : bytes rest <:+ bytes text) :
    ∃ before, text = before ++ rest := by
  rw [bytes.eq_def text] at h
  obtain ⟨cs, hcs, before, htext⟩ := (valid_bytes rest).exists_suffix h
  have hrest : rest = String.ofList cs := by
    apply bytes_inj
    rw [hcs, bytes, String.toList_ofList, encode]
  refine ⟨String.ofList before, ?_⟩
  rw [hrest, ← String.ofList_append, htext, String.ofList_toList]

end Utf8

namespace Scanner

/-- A scanner in the second part of a text, and a scanner of that part alone, that have the same bytes
left to read. -/
structure Resumes (start : Location) (before behind : List UInt8) (sc fresh : Scanner) : Prop where
  text : sc.text = before ++ behind
  lines : sc.lines = .ofBytes start (before ++ behind)
  freshText : fresh.text = behind
  freshLines : fresh.lines = .ofBytes (start.after before) behind
  rest : sc.rest = fresh.rest

namespace Resumes

variable {start : Location} {before behind : List UInt8} {sc fresh : Scanner}

/-- What is left stands at the same place in both texts. -/
lemma locationBefore (h : Resumes start before behind sc fresh) {left : Nat}
    (hleft : left ≤ behind.length) : sc.locationBefore left = fresh.locationBefore left := by
  have hoffset : (before ++ behind).length - left = before.length + (behind.length - left) := by
    rw [List.length_append]
    omega
  rw [Scanner.locationBefore, Scanner.locationBefore, h.text, h.lines, h.freshText, h.freshLines,
    hoffset, LineIndex.locate_append]

/-- Both scanners read the same token, with the same place. -/
lemma token (h : Resumes start before behind sc fresh) : sc.next.token = fresh.next.token := by
  have hsuffix : fresh.rest <:+ behind := by
    rw [← h.freshText]
    exact List.drop_suffix fresh.read fresh.text
  have hleft : (tokenStart fresh.rest).length ≤ behind.length :=
    ((tokenStart_suffix fresh.rest).trans hsuffix).length_le
  have hplace := h.locationBefore hleft
  simp only [Scanner.next, h.rest, hplace]

/-- Both scanners stay so behind a token. -/
lemma next (h : Resumes start before behind sc fresh) :
    Resumes start before behind sc.next.source fresh.next.source where
  text := h.text
  lines := h.lines
  freshText := h.freshText
  freshLines := h.freshLines
  rest := by rw [rest_next, rest_next, h.rest]

/-- Both scanners stay so behind a number of tokens. -/
lemma after (h : Resumes start before behind sc fresh) (n : Nat) :
    Resumes start before behind (sc.after n) (fresh.after n) := by
  induction n with
  | zero => exact h
  | succ n ih => exact ih.next

/-- Both scanners give the same tokens. -/
lemma tokens (h : Resumes start before behind sc fresh) : sc.tokens = fresh.tokens := by
  unfold Scanner.tokens
  fun_induction reads fresh generalizing sc with
  | case1 fresh hend =>
    have hsc : sc.next.token.kind = .eof := by rw [h.token, hend]
    rw [reads, dif_pos hsc]
  | case2 fresh hne _ ih =>
    have hsc : sc.next.token.kind ≠ .eof := by rwa [h.token]
    rw [reads, dif_neg hsc, List.map_cons, List.map_cons, h.token, ih h.next]

end Resumes

/-- A scanner that stands between two parts of its text has only the second one left. -/
lemma resumes_after {text : String} {start : Location} {n : Nat} {before rest : String}
    (htext : text = before ++ rest) (hrest : ((ofText text start).after n).rest = Utf8.bytes rest) :
    Resumes start (Utf8.bytes before) (Utf8.bytes rest) ((ofText text start).after n)
      (ofText rest (start.after (Utf8.bytes before))) := by
  have hbytes : Utf8.bytes text = Utf8.bytes before ++ Utf8.bytes rest := by
    rw [htext, Utf8.bytes_append]
  have hlines : ((ofText text start).after n).lines = .ofBytes start (Utf8.bytes text) :=
    lines_after (ofText text start) n
  rw [hbytes] at hlines
  exact ⟨(text_after _ n).trans hbytes, hlines, rfl, rfl, hrest⟩

end Scanner

open Scanner in
/-- Scanning depends on the text still to come only. Where a scanner stands between two characters of
its text, all tokens from there on are those of a fresh scanner of the characters that are left, which
starts at the place of the first of them. -/
theorem scanning_depends_on_rest (text rest : String) (start : Location) (n : Nat)
    (hrest : ((ofText text start).after n).rest = Utf8.bytes rest) :
    ∃ before place, text = before ++ rest ∧ place = start.after (Utf8.bytes before) ∧
      place = ((ofText text start).after n).locationBefore (Utf8.bytes rest).length ∧
      (∀ m, (((ofText text start).after n).after m).next.token =
        ((ofText rest place).after m).next.token) ∧
      ((ofText text start).after n).tokens = tokenize rest place := by
  have hsuffix : Utf8.bytes rest <:+ Utf8.bytes text := by
    rw [← hrest]
    exact rest_suffix (text_after _ n)
  obtain ⟨before, htext⟩ := Utf8.exists_append_of_suffix hsuffix
  have hresumes := resumes_after htext hrest
  refine ⟨before, _, htext, rfl, ?_, fun m => (hresumes.after m).token, hresumes.tokens⟩
  rw [hresumes.locationBefore (Nat.le_refl _), Scanner.locationBefore, hresumes.freshLines,
    hresumes.freshText, Nat.sub_self, LineIndex.locate_eq_after]
  simp [Location.after, Location.skip]

/-- Behind the blanks of the second line only that line is needed, and its place. -/
theorem scanning_depends_on_rest_secondLine :
    ((Scanner.ofText "p\n  é: x" ⟨10, 5, 100⟩).after 2).rest = Utf8.bytes "é: x" ∧
    ((Scanner.ofText "p\n  é: x" ⟨10, 5, 100⟩).after 2).tokens = tokenize "é: x" ⟨11, 3, 104⟩ := by
  have hrest : ((Scanner.ofText "p\n  é: x" ⟨10, 5, 100⟩).after 2).rest = Utf8.bytes "é: x" := by
    decide +kernel
  obtain ⟨-, place, -, -, hplace, -, htokens⟩ := scanning_depends_on_rest _ _ _ _ hrest
  have hsecond : place = ⟨11, 3, 104⟩ := hplace.trans (by decide +kernel)
  rw [hsecond] at htokens
  exact ⟨hrest, htokens⟩

end CssSyntax
