import CssSyntax.Proofs.Resumption
import CssSyntax.Proofs.Soundness

/-!
# Stray brackets

Recovery that starts outside of all brackets ends where the construct in front of it does
(`recovery_ends_behind`). Brackets that close nothing may stand between nested lists there
(`Interleaved`): the count of open brackets passes them by, and it is back at none behind each part.
-/

namespace CssSyntax

open CssSyntax.Bracket

/-- Nested lists and, between them, tokens that close one of the given brackets where none is open. -/
inductive Interleaved (strays : List Bracket) : List Token → Prop where
  | nil : Interleaved strays []
  | nested {us ts : List Token} :
    Nested us → Interleaved strays ts → Interleaved strays (us ++ ts)
  | stray {t : Token} {b : Bracket} {ts : List Token} :
    t.kind.closes? = some b → b ∈ strays → Interleaved strays ts → Interleaved strays (t :: ts)

namespace Interleaved

variable {strays : List Bracket} {ts : List Token}

/-- The end of the input is no part of it. -/
lemma ne_eof (h : Interleaved strays ts) : ∀ t ∈ ts, t.kind ≠ .eof := by
  induction h with
  | nil => nofun
  | nested hu _ ih => exact List.forall_mem_append.mpr ⟨hu.ne_eof, ih⟩
  | stray hc _ _ ih => exact List.forall_mem_cons.mpr ⟨Kind.ne_eof_of_closes hc, ih⟩

/-- Behind each part no bracket is open. -/
lemma after_eq (h : Interleaved strays ts) : after [] ts = [] := by
  induction h with
  | nil => rfl
  | nested hu _ ih => rw [after_append, hu.after_eq, ih]
  | @stray t b ts hc _ _ ih =>
    show after (track [] t.kind) ts = []
    rw [track_nil_of_closes hc, ih]

/-- A `}` outside of all brackets is a stray one. -/
lemma ne_rcurly (h : Interleaved strays ts) (hs : Bracket.curly ∉ strays) :
    ∀ t ∈ outside ts, t.kind ≠ .rcurly := by
  induction h with
  | nil => nofun
  | @nested us ts hu _ ih =>
    intro t ht
    obtain ht | ht := mem_outsideWithin_append.mp ht
    · have hu : Nested ([] ++ us) := hu
      exact hu.ne_rcurly nofun t ht
    · rw [hu.after_eq] at ht
      exact ih t ht
  | @stray u b ts hc hb _ ih =>
    intro t ht
    obtain ⟨-, rfl⟩ | ht := mem_outsideWithin_cons.mp ht
    · refine Kind.ne_rcurly_of_closes hc ?_
      rintro rfl
      exact hs hb
    · rw [track_nil_of_closes hc] at ht
      exact ih t ht

/-- Recovery passes what has no `;` outside of brackets and no stray `}`. -/
lemma passes_declaration (h : Interleaved [.paren, .square] ts)
    (ho : ∀ t ∈ outside ts, t.kind ≠ .semicolon) : Boundary.Passes .declaration [] ts := by
  refine (passes_declaration_iff h.ne_eof).mpr fun t ht => ⟨ho t ht, ?_⟩
  exact h.ne_rcurly (by decide) t ht

/-- The search for the end of a declaration leaves what stands behind its `;`. -/
lemma rest_semicolon {s : Token} (h : Interleaved [.paren, .square] ts)
    (ho : ∀ t ∈ outside ts, t.kind ≠ .semicolon) (hs : s.kind = .semicolon) (vs : List Token) :
    Boundary.declaration.rest (ts ++ s :: vs) = vs := by
  rw [Boundary.rest, (h.passes_declaration ho).restWithin, h.after_eq]
  refine Boundary.restWithin_of_stopBehind ?_ ?_
  · rw [hs]
    decide
  · rw [hs]
    rfl

/-- The search for the end of a declaration leaves the `}` of the block around it. -/
lemma rest_rcurly {s : Token} (h : Interleaved [.paren, .square] ts)
    (ho : ∀ t ∈ outside ts, t.kind ≠ .semicolon) (hs : s.kind = .rcurly) (vs : List Token) :
    Boundary.declaration.rest (ts ++ s :: vs) = s :: vs := by
  rw [Boundary.rest, (h.passes_declaration ho).restWithin, h.after_eq]
  refine Boundary.restWithin_of_stopBefore ?_ ?_
  · exact Kind.ne_eof_of_closes (congrArg Kind.closes? hs)
  · rw [hs]
    rfl

/-- The search for the end of a ruleset leaves what stands behind its block. -/
lemma rest_block {bs : List Token} {l r : Token} (h : Interleaved strays ts)
    (ho : ∀ t ∈ outside ts, t.kind ≠ .lcurly) (hb : Nested bs) (hl : l.kind = .lcurly)
    (hr : r.kind = .rcurly) (vs : List Token) :
    Boundary.block.rest (ts ++ l :: (bs ++ r :: vs)) = vs := by
  have hopen : l.kind.opens? = some .curly := congrArg Kind.opens? hl
  have hpass : Boundary.Passes .block [] ts := (passes_block_iff h.ne_eof h.after_eq).mpr ho
  rw [Boundary.rest, hpass.restWithin, h.after_eq]
  refine (Boundary.rest_enclosed hopen hb).trans (Boundary.restWithin_of_stopBehind ?_ ?_)
  · exact Kind.ne_eof_of_closes (congrArg Kind.closes? hr)
  · rw [hr]
    rfl

end Interleaved

/-- Recovery ends where the tokens that it leaves begin. -/
lemma Parser.resync_stream {p q : Parser} {boundary : Boundary} {us : List Token} (hq : p.Reads us q)
    (h : boundary.rest (us ++ q.unread) = q.unread) : (p.resync boundary).stream = q.stream := by
  obtain ⟨ts, hr, -⟩ := p.resync_reads boundary
  refine hr.stream_eq hq ?_
  rw [Parser.resync_unread, hq.unread, h]

/-- Recovery that starts outside of all brackets ends behind the construct in front of it, whatever
stands there and behind it. It ends behind the `;` of a declaration or on the `}` of the block around
it if there is no `;` outside of brackets before, and behind the block of a ruleset if there is no `{`
outside of brackets before. Stray closing brackets do not count, except for a `}` that ends the block
around a declaration. -/
theorem recovery_ends_behind (p : Parser) (rest : Stream' Token) :
    (∀ (ms : List Token) (s : Token), Interleaved [.paren, .square] ms →
      (∀ t ∈ outside ms, t.kind ≠ .semicolon) → p.stream = (ms ++ [s]) ++ₛ rest →
      (s.kind = .semicolon → (p.resync .declaration).stream = rest) ∧
      (s.kind = .rcurly → (p.resync .declaration).stream = [s] ++ₛ rest)) ∧
    ∀ (ps bs : List Token) (l r : Token), Interleaved [.paren, .square, .curly] ps →
      (∀ t ∈ outside ps, t.kind ≠ .lcurly) → Nested bs → l.kind = .lcurly → r.kind = .rcurly →
      p.stream = (ps ++ l :: (bs ++ [r])) ++ₛ rest → (p.resync .block).stream = rest := by
  constructor
  · intro ms s hms ho hp
    constructor
    · intro hs
      have hne : ∀ t ∈ ms ++ [s], t.kind ≠ .eof :=
        List.forall_mem_append.mpr ⟨hms.ne_eof, List.forall_mem_singleton.mpr (by rw [hs]; decide)⟩
      obtain ⟨q, hq, rfl⟩ := Parser.exists_reads hp hne
      apply Parser.resync_stream hq
      rw [List.append_assoc]
      exact hms.rest_semicolon ho hs q.unread
    · intro hs
      rw [Stream'.append_append_stream] at hp
      obtain ⟨q, hq, hstream⟩ := Parser.exists_reads hp hms.ne_eof
      -- recovery leaves this token unread, so it belongs to what is left
      obtain rfl : q.current = s := congrArg Stream'.head hstream
      obtain ⟨vs, hv⟩ := q.unread_eq_cons
      rw [← hstream]
      apply Parser.resync_stream hq
      rw [hv]
      exact hms.rest_rcurly ho hs vs
  · intro ps bs l r hps ho hb hl hr hp
    have hblock : Nested (l :: bs ++ r :: []) :=
      .enclose (congrArg Kind.opens? hl) (congrArg Kind.closes? hr) hb .nil
    have hne : ∀ t ∈ ps ++ l :: (bs ++ [r]), t.kind ≠ .eof :=
      List.forall_mem_append.mpr ⟨hps.ne_eof, hblock.ne_eof⟩
    obtain ⟨q, hq, rfl⟩ := Parser.exists_reads hp hne
    apply Parser.resync_stream hq
    rw [List.append_assoc, List.cons_append, List.append_assoc]
    exact hps.rest_block ho hb hl hr q.unread

/-- The tokens of `)a:f(;)]`. -/
def strewnValue : List Token :=
  ⟨.rparen, .origin⟩ :: (Grammar.semicolonInCall ++ [⟨.rbracket, .origin⟩])

/-- The tokens of `}a[{}])`. -/
def strewnPrelude : List Token :=
  ⟨.rcurly, .origin⟩ :: (Grammar.blockInCondition ++ [⟨.rparen, .origin⟩])

/-- The tokens of `)a:f(;)]` have stray brackets at both ends. -/
lemma interleaved_strewnValue : Interleaved [.paren, .square] strewnValue :=
  .stray rfl (by decide)
    (.nested Grammar.nested_semicolonInCall (.stray rfl (by decide) .nil))

/-- The tokens of `}a[{}])` have stray brackets at both ends. -/
lemma interleaved_strewnPrelude : Interleaved [.paren, .square, .curly] strewnPrelude :=
  .stray rfl (by decide)
    (.nested Grammar.nested_blockInCondition (.stray rfl (by decide) .nil))

/-- A parser on the first of some tokens, with a name behind them. -/
def beforeName (ts : List Token) : Parser :=
  .ofSource (.tokens (ts ++ [⟨.ident "x", .origin⟩])) {}

/-- The parser has the given tokens in front of it, and the name behind them. -/
lemma beforeName_stream (ts : List Token) :
    (beforeName ts).stream = ts ++ₛ (Source.tokens [⟨.ident "x", .origin⟩]).stream := by
  rw [beforeName, Parser.stream_ofSource, Source.stream_tokens]

/-- Recovery from `)a:f(;)];x` and from `}a[{}]){a[{}]}x` ends on the name, and that from
`)a:f(;)]}x` on the brace. -/
theorem recovery_ends_behind_strays :
    (Interleaved [.paren, .square] strewnValue ∧
      (∀ t ∈ outside strewnValue, t.kind ≠ .semicolon) ∧
      ((beforeName (strewnValue ++ [⟨.semicolon, .origin⟩])).resync .declaration).stream =
        (Source.tokens [⟨.ident "x", .origin⟩]).stream ∧
      ((beforeName (strewnValue ++ [⟨.rcurly, .origin⟩])).resync .declaration).stream =
        [⟨.rcurly, .origin⟩] ++ₛ (Source.tokens [⟨.ident "x", .origin⟩]).stream) ∧
    Interleaved [.paren, .square, .curly] strewnPrelude ∧
      (∀ t ∈ outside strewnPrelude, t.kind ≠ .lcurly) ∧ Nested Grammar.blockInCondition ∧
      ((beforeName (strewnPrelude ++ ⟨.lcurly, .origin⟩ ::
        (Grammar.blockInCondition ++ [⟨.rcurly, .origin⟩]))).resync .block).stream =
        (Source.tokens [⟨.ident "x", .origin⟩]).stream := by
  have hvalue : ∀ t ∈ outside strewnValue, t.kind ≠ .semicolon := by decide +kernel
  have hprelude : ∀ t ∈ outside strewnPrelude, t.kind ≠ .lcurly := by decide +kernel
  refine ⟨⟨interleaved_strewnValue, hvalue, ?_, ?_⟩, interleaved_strewnPrelude, hprelude,
    Grammar.nested_blockInCondition, ?_⟩
  · exact ((recovery_ends_behind _ _).1 _ _ interleaved_strewnValue hvalue
      (beforeName_stream _)).1 rfl
  · exact ((recovery_ends_behind _ _).1 _ _ interleaved_strewnValue hvalue
      (beforeName_stream _)).2 rfl
  · exact (recovery_ends_behind _ _).2 _ _ _ _ interleaved_strewnPrelude hprelude
      Grammar.nested_blockInCondition rfl rfl (beforeName_stream _)

end CssSyntax
