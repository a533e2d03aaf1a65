import CssSyntax.Proofs.EndOfInput

/-!
# Texts that are scanned beforehand

A parser takes its tokens from a scanner, one at a time, or from a list of all tokens of the text. With
a scanner it meets the end of the input where the text ends, with a list at no place in any document.
Nothing that is read depends on the places of tokens, so both give the same.
-/

namespace CssSyntax

namespace Scanner

/-- The tokens of a text hold no end of the input. -/
lemma noEof_tokens (sc : Scanner) : NoEof sc.tokens := by
  unfold tokens
  fun_induction reads sc with
  | case1 => exact noEof_nil
  | case2 sc h _ ih => exact noEof_cons.mpr ⟨h, ih⟩

/-- A scanner gives its tokens and then an end of the input. -/
lemma exists_unread (sc : Scanner) :
    ∃ e, e.kind = .eof ∧ (Source.scanner sc).unread = sc.tokens ++ [e] := by
  unfold tokens
  fun_induction reads sc with
  | case1 sc h =>
    refine ⟨sc.next.token, h, ?_⟩
    rw [Source.unread]
    exact dif_pos h
  | case2 sc h _ ih =>
    obtain ⟨e, he, hu⟩ := ih
    refine ⟨e, he, ?_⟩
    rw [Source.unread, List.map_cons, List.cons_append, ← hu]
    exact dif_neg h

/-- A parser of a scanner faces what a parser of its tokens does. -/
lemma facing_tokens (sc : Scanner) (config : Config) :
    (Parser.ofSource (.scanner sc) config).Facing UpToBrace
      (Parser.ofSource (.tokens sc.tokens) config) := by
  obtain ⟨e, he, hu⟩ := sc.exists_unread
  refine ⟨?_, rfl, rfl⟩
  rw [Parser.unread_ofSource, hu, Parser.unread_of_noEof sc.noEof_tokens]
  exact .append sc.noEof_tokens (.eof he rfl)

end Scanner

open Grammar in
/-- It is all the same whether a text is scanned while it is parsed or beforehand, for stylesheets and
for lists of declarations. -/
theorem prescanned_text_reads_alike (text : String) (config : Config) :
    (∃ s, (parseText text config).result = .ok s ∧
      (parseSource (.tokens (tokenize text config.start)) config).result = .ok s) ∧
    ∃ ds, (parseDeclarationsText text config).result = .ok ds ∧
      ((Parser.ofSource (.tokens (tokenize text config.start)) config).report
        declarations).result = .ok ds := by
  have h := (Scanner.ofText text config.start).facing_tokens config
  exact ⟨(document_agrees (stylesheet_agrees (h.note _ _))).reports document_total,
    (declarations_agree h).reports declarations_total⟩

end CssSyntax
