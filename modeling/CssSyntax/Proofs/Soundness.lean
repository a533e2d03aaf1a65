import Mathlib.Data.Stream.Init
import CssSyntax.Proofs.Stylesheet

/-!
# Soundness

`Parser.stream` is everything that a parser can still be given: its current token, the token that was
pushed back and all tokens of the source, also those behind an end of the input. Every move of the
window takes the tokens that it moves past off the front of this stream (`Parser.Reads.stream`),
wherever its head is kept.

So a production that gives a result takes a spelling of this result from the stream and leaves the
rest as it was (`Grammar.productions_sound`).
-/

namespace CssSyntax

open Stream'

/-- All tokens that a source gives, one after the other. -/
def Source.stream : Source → Stream' Token :=
  corec (fun source => source.next.token) (fun source => source.next.source)

/-- The stream of a source starts with the token that is read next. -/
lemma Source.stream_eq (source : Source) :
    source.stream = [source.next.token] ++ₛ source.next.source.stream :=
  corec_eq _ _ source

/-- A list gives its tokens one after the other. -/
lemma Source.stream_tokens (ts us : List Token) :
    (Source.tokens (ts ++ us)).stream = ts ++ₛ (Source.tokens us).stream := by
  induction ts with
  | nil => rfl
  | cons t ts ih =>
    rw [Source.stream_eq]
    exact congrArg (cons t) ih

namespace Parser

/-- All tokens from the current one on, whether they were pushed back or are in the source still. -/
def stream (p : Parser) : Stream' Token :=
  (p.current :: p.pushedBack.toList) ++ₛ p.source.stream

/-- A fresh parser has the stream of its source in front of it. -/
lemma stream_ofSource (source : Source) (config : Config) :
    (ofSource source config).stream = source.stream :=
  source.stream_eq.symm

/-- A move takes the first token off the stream. -/
lemma CanMove.stream {p : Parser} (h : p.CanMove) :
    p.stream = [p.current] ++ₛ p.advance.stream := by
  cases hb : p.pushedBack with
  | some t =>
    rw [advance_of_pushedBack hb, Parser.stream, hb]
    rfl
  | none =>
    have hk : p.kind ≠ .eof := h.resolve_right fun hn => hn hb
    rw [advance_of_ne_eof hb hk, Parser.stream, hb]
    show [p.current] ++ₛ p.source.stream = _
    rw [Source.stream_eq]
    rfl

/-- The token that the window has left can be returned to. -/
lemma CanMove.previous {p : Parser} (h : p.CanMove) : p.advance.previous = some p.current := by
  cases hb : p.pushedBack with
  | some t => rw [advance_of_pushedBack hb]
  | none => rw [advance_of_ne_eof hb (h.resolve_right fun hn => hn hb)]

/-- Returning to a token puts it in front of the stream. -/
lemma pushBack_stream {p q : Parser} {t : Token} (ht : p.previous = some t)
    (h : p.pushBack = .ok q) : q.stream = [t] ++ₛ p.stream := by
  cases hb : p.pushedBack with
  | some u =>
    rw [pushBack, hb] at h
    cases h
  | none =>
    rw [pushBack, hb, ht] at h
    cases h
    rw [stream, stream, hb]
    rfl

/-- What a window moves past is what the stream loses. -/
lemma Reads.stream {p q : Parser} {ts : List Token} (h : p.Reads ts q) :
    p.stream = ts ++ₛ q.stream := by
  induction h with
  | refl => rfl
  | note => rfl
  | advance hm => exact hm.stream
  | @lookAhead p q hk hq =>
    have hm : p.CanMove := .inl hk
    rw [hm.stream]
    exact (pushBack_stream hm.previous hq).symm
  | trans _ _ ihp ihq => rw [ihp, ihq, append_append_stream]

/-- Two ways to read on that leave the same tokens up to the end of the input leave the same stream. -/
lemma Reads.stream_eq {p q r : Parser} {ts us : List Token} (hq : p.Reads ts q)
    (hr : p.Reads us r) (h : q.unread = r.unread) : q.stream = r.stream := by
  have hu := hq.unread.symm.trans hr.unread
  rw [h] at hu
  obtain rfl := List.append_cancel_right hu
  exact append_right_injective ts _ _ (hq.stream.symm.trans hr.stream)

/-- A parser can move past tokens in front of it that do not end the input. -/
lemma exists_reads {p : Parser} {us : List Token} {rest : Stream' Token}
    (h : p.stream = us ++ₛ rest) (hne : ∀ t ∈ us, t.kind ≠ .eof) :
    ∃ q, p.Reads us q ∧ q.stream = rest := by
  induction us generalizing p with
  | nil => exact ⟨p, .refl p, h⟩
  | cons t us ih =>
    obtain ⟨ht, hus⟩ := List.forall_mem_cons.mp hne
    obtain rfl : p.current = t := congrArg head h
    have hm : p.CanMove := .inl ht
    have hrest : p.advance.stream = us ++ₛ rest :=
      append_right_injective [p.current] _ _ (hm.stream.symm.trans h)
    obtain ⟨q, hq, hs⟩ := ih hrest hus
    exact ⟨q, (Reads.advance hm).trans hq, hs⟩

end Parser

/-- A production takes from the stream what spells its result as `S` says, and nothing else. -/
def ParseM.TakesOnly {α : Type} (m : ParseM α) (S : α → List Token → Prop) : Prop :=
  ∀ p a q, m p = (.ok a, q) → ∃ ts, p.stream = ts ++ₛ q.stream ∧ S a ts

/-- A run that reads spellings takes nothing else. -/
lemma ParseM.TakesOnly.of_run {α : Type} {K : Kind → Prop} {m : ParseM α}
    {S : α → List Token → Prop} (h : ∀ p, m.Run K p fun ts a _ => S a ts) : m.TakesOnly S := by
  intro p a q he
  obtain ⟨ts, hr, -, hs⟩ := (h p).of_ok he
  exact ⟨ts, hr.stream, hs⟩

/-! ### The end of a selector -/

/-- Tokens without blanks at the end. -/
def Unpadded (ts : List Token) : Prop :=
  ∃ us t, ts = us ++ [t] ∧ t.kind.isWhitespace = false

/-- Further tokens in front do not matter for how a list ends. -/
lemma Unpadded.append {ts : List Token} (h : Unpadded ts) (us : List Token) :
    Unpadded (us ++ ts) := by
  obtain ⟨vs, t, rfl, ht⟩ := h
  exact ⟨us ++ vs, t, (List.append_assoc us vs [t]).symm, ht⟩

/-- A token that is no blank ends without one. -/
lemma Unpadded.of_kind {t : Token} {k : Kind} (h : t.kind = k) (hk : k.isWhitespace = false) :
    Unpadded [t] :=
  ⟨[], t, rfl, h ▸ hk⟩

/-- An attribute condition ends in its bracket. -/
lemma AttributeTest.Spelled.unpadded {test : AttributeTest} {ts : List Token}
    (h : test.Spelled ts) : Unpadded ts := by
  cases h with
  | @empty l r bs _ _ hr =>
    exact (Unpadded.of_kind hr rfl).append (l :: bs)
  | @present _ l t r bs cs _ _ _ _ hr =>
    have hend := ((Unpadded.of_kind hr rfl).append (t :: cs)).append (l :: bs)
    simpa only [List.cons_append] using hend
  | @compared _ _ _ l t o v r bs cs ds es _ _ _ _ _ _ _ _ hr =>
    have hend := ((((Unpadded.of_kind hr rfl).append (v :: es)).append (o :: ds)).append
      (t :: cs)).append (l :: bs)
    simpa only [List.cons_append] using hend

/-- A condition ends without a blank. -/
lemma Simple.Spelled.unpadded {s : Simple} {ts : List Token} (h : s.Spelled ts) :
    Unpadded ts := by
  cases h with
  | id ht => exact .of_kind ht rfl
  | @className _ d _ _ ht => exact (Unpadded.of_kind ht rfl).append [d]
  | attr h => exact h.unpadded
  | @pseudo _ c _ _ ht => exact (Unpadded.of_kind ht rfl).append [c]
  | @call _ _ c f r bs ts _ _ _ _ hr =>
    have hend := ((Unpadded.of_kind hr rfl).append ts).append (c :: f :: bs)
    simpa only [List.cons_append] using hend

/-- Items end without a blank if each of them does and there is one. -/
lemma Each.unpadded {α : Type} {S : α → List Token → Prop} {as : List α} {ts : List Token}
    (h : Each S as ts) (hs : ∀ a ts, S a ts → Unpadded ts) (hne : as ≠ []) : Unpadded ts := by
  induction h with
  | nil => exact absurd rfl hne
  | @cons a as ts us ha has ih =>
    cases as with
    | nil =>
      cases has
      rw [List.append_nil]
      exact hs a ts ha
    | cons b bs => exact (ih (List.cons_ne_nil b bs)).append ts

/-- A compound ends without a blank. -/
lemma Compound.Spelled.unpadded {c : Compound} {ts : List Token} (h : c.Spelled ts) :
    Unpadded ts := by
  cases h with
  | @intro element conditions ts us he hc hne =>
    cases conditions with
    | cons s ss =>
      exact (hc.unpadded (fun _ _ hs => hs.unpadded) (List.cons_ne_nil s ss)).append ts
    | nil =>
      cases hc
      rw [List.append_nil]
      cases he with
      | absent => exact absurd ⟨rfl, rfl⟩ hne
      | named ht => exact .of_kind ht rfl
      | universal ht => exact .of_kind ht rfl

/-- No blank belongs to the end of a selector. -/
lemma Selector.Spelled.unpadded {s : Selector} {ts : List Token} (h : s.Spelled ts) :
    Unpadded ts := by
  cases h with
  | @intro first others ts us hfirst hothers =>
    cases others with
    | nil =>
      cases hothers
      rw [List.append_nil]
      exact hfirst.unpadded
    | cons x xs =>
      refine (hothers.unpadded ?_ (List.cons_ne_nil x xs)).append ts
      intro y vs hy
      cases hy with
      | intro _ hc => exact hc.unpadded.append _

namespace Grammar

open ParseM

/-- Selectors, expressions, terms, functions and imports take from the stream exactly the tokens that
spell them. A blank behind a selector is no part of it and stays in the stream. -/
theorem productions_sound :
    selector.TakesOnly (fun s ts => s.Spelled ts ∧ Unpadded ts) ∧
    expression.TakesOnly Expression.Spelled ∧
    term.TakesOnly Term.Spelled ∧
    function.TakesOnly Function.Spelled ∧
    importRule.TakesOnly Import.Spelled := by
  refine ⟨?_, ?_, ?_, ?_, ?_⟩
  · refine .of_run (K := Kind.Inner) fun p => (selector_run p).imp ?_
    intro ts s q _ hs
    exact ⟨hs, hs.unpadded⟩
  · refine .of_run (K := Kind.Inner) fun p => (expression_run p).imp ?_
    intro ts e q _ he
    exact he.1
  · refine .of_run (K := Kind.Inner) fun p => (term_run p).imp ?_
    intro ts t q _ ht
    exact ht.1
  · refine .of_run (K := Kind.Inner) fun p => (function_run p).imp ?_
    intro ts f q _ hf
    exact hf.1
  · exact .of_run importRule_run

/-- A parser on the first of some tokens. -/
def onTokens (ks : List Kind) : Parser :=
  .ofSource (.tokens (ks.map (Token.mk · .origin))) {}

/-- An action that gives a result on a parser succeeds there. -/
lemma apply_of_toOption {α : Type} {m : ParseM α} {p : Parser} {a : α}
    (h : (m p).1.toOption = some a) : m p = (.ok a, (m p).2) := by
  rcases hm : m p with ⟨_ | b, q⟩ <;> rw [hm] at h <;> cases h
  rfl

/-- The parser of `a .b }`. -/
def paddedSelector : Parser :=
  onTokens [.ident "a", .whitespace " ", .dot, .ident "b", .whitespace " ", .rcurly]

/-- The parser of `-f( x, g(y) )/ z;`. -/
def nestedCalls : Parser :=
  onTokens [.minus, .function "f", .whitespace " ", .ident "x", .comma, .whitespace " ",
    .function "g", .ident "y", .rparen, .whitespace " ", .rparen, .slash, .whitespace " ",
    .ident "z", .semicolon]

/-- The parser of `@import "u" a, b; c`. -/
def importOfMedia : Parser :=
  onTokens [.atImport, .whitespace " ", .string "u" '"', .whitespace " ", .ident "a", .comma,
    .whitespace " ", .ident "b", .semicolon, .whitespace " ", .ident "c"]

/-- The function of `nestedCalls`. -/
def outerCall : Function :=
  ⟨"f", [.value none (.ident "x"), .function none "g" [.value none (.ident "y")] []], [.comma]⟩

/-- The blank behind a selector is left in the stream, and those inside of a call and of an import
are taken. -/
theorem productions_sound_examples :
    (∃ ts, paddedSelector.stream = ts ++ₛ (selector paddedSelector).2.stream ∧
      Selector.Spelled ⟨[⟨some (.named "a"), []⟩, ⟨none, [.className "b"]⟩], [.descendant]⟩ ts ∧
      Unpadded ts) ∧
    (∃ ts, nestedCalls.stream = ts ++ₛ (expression nestedCalls).2.stream ∧
      Expression.Spelled ⟨[outerCall.toTerm (some .minus), .value none (.ident "z")], [.slash]⟩ ts) ∧
    (∃ ts, nestedCalls.stream = ts ++ₛ (term nestedCalls).2.stream ∧
      (outerCall.toTerm (some .minus)).Spelled ts) ∧
    (∃ ts, nestedCalls.advance.stream = ts ++ₛ (function nestedCalls.advance).2.stream ∧
      outerCall.Spelled ts) ∧
    ∃ ts, importOfMedia.stream = ts ++ₛ (importRule importOfMedia).2.stream ∧
      Import.Spelled ⟨"u", ["a", "b"]⟩ ts := by
  obtain ⟨hselector, hexpression, hterm, hfunction, himport⟩ := productions_sound
  refine ⟨?_, ?_, ?_, ?_, ?_⟩
  · exact hselector _ _ _ (apply_of_toOption (by decide +kernel))
  · exact hexpression _ _ _ (apply_of_toOption (by decide +kernel))
  · exact hterm _ _ _ (apply_of_toOption (by decide +kernel))
  · exact hfunction _ _ _ (apply_of_toOption (by decide +kernel))
  · exact himport _ _ _ (apply_of_toOption (by decide +kernel))

end Grammar

end CssSyntax
