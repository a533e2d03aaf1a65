import CssSyntax.Proofs.Reading
import CssSyntax.Token.Nesting

/-!
# Nesting

The brackets that recovery counts. It starts without any, also where some are open around it, and
`Bracket.after` are those that are open behind the tokens it has met.

Brackets that are open around the tokens do not disturb the count (`Bracket.after_within`): what
closes them is ignored. They do matter for what counts as a boundary, since a token directly inside
them is then outside of all brackets that recovery knows of.
-/

namespace CssSyntax

/-- What closes a bracket opens none. -/
lemma Kind.opens?_eq_none {k : Kind} {b : Bracket} (h : k.closes? = some b) :
    k.opens? = none := by
  cases k <;> first | rfl | cases h

/-- Only an opening brace opens a block. -/
lemma Kind.eq_lcurly {k : Kind} (h : k.opens? = some .curly) : k = .lcurly := by
  cases k <;> first | rfl | cases h

/-- Only a closing brace closes a block. -/
lemma Kind.eq_rcurly {k : Kind} (h : k.closes? = some .curly) : k = .rcurly := by
  cases k <;> first | rfl | cases h

namespace Bracket

/-- The open brackets behind some tokens, innermost first. -/
def after (brackets : List Bracket) (ts : List Token) : List Bracket :=
  ts.foldl (fun bs t => track bs t.kind) brackets

/-- The brackets that are open behind two lists are counted through the first one. -/
lemma after_append (brackets : List Bracket) (us vs : List Token) :
    after brackets (us ++ vs) = after (after brackets us) vs :=
  List.foldl_append

/-- A token that opens a bracket makes it the innermost one. -/
lemma track_of_opens {brackets : List Bracket} {k : Kind} {b : Bracket}
    (h : k.opens? = some b) : track brackets k = b :: brackets := by
  simp only [track, h]

/-- A token that closes the innermost bracket takes it off. -/
lemma track_of_closes {brackets : List Bracket} {k : Kind} {b : Bracket}
    (hc : k.closes? = some b) (hb : brackets.head? = some b) :
    track brackets k = brackets.tail := by
  simp only [track, Kind.opens?_eq_none hc, hc, hb, if_true]

/-- What closes another bracket than the innermost one is ignored. -/
lemma track_of_stray {brackets : List Bracket} {k : Kind} {b : Bracket}
    (hc : k.closes? = some b) (hb : brackets.head? ≠ some b) : track brackets k = brackets := by
  simp only [track, Kind.opens?_eq_none hc, hc, hb, if_false]

/-- Outside of all brackets every closing one is stray. -/
lemma track_nil_of_closes {k : Kind} {b : Bracket} (hc : k.closes? = some b) : track [] k = [] :=
  track_of_stray hc nofun

/-- A token that is no bracket leaves the count as it is. -/
lemma track_of_neither {brackets : List Bracket} {k : Kind} (ho : k.opens? = none)
    (hc : k.closes? = none) : track brackets k = brackets := by
  simp only [track, ho, hc]

/-- Brackets further out than those of the count only ever disappear. -/
lemma track_within (inner outer : List Bracket) (k : Kind) :
    ∃ rest, rest <:+ outer ∧ track (inner ++ outer) k = track inner k ++ rest := by
  cases ho : k.opens? with
  | some b =>
    refine ⟨outer, List.suffix_rfl, ?_⟩
    rw [track_of_opens ho, track_of_opens ho]
    rfl
  | none =>
    cases hc : k.closes? with
    | none =>
      refine ⟨outer, List.suffix_rfl, ?_⟩
      rw [track_of_neither ho hc, track_of_neither ho hc]
    | some b =>
      cases inner with
      | nil =>
        -- the count knows of no bracket, so what closes one further out is ignored
        rw [List.nil_append, track_nil_of_closes hc]
        by_cases h : outer.head? = some b
        · exact ⟨outer.tail, List.tail_suffix outer, track_of_closes hc h⟩
        · exact ⟨outer, List.suffix_rfl, track_of_stray hc h⟩
      | cons a inner =>
        refine ⟨outer, List.suffix_rfl, ?_⟩
        by_cases h : (a :: inner).head? = some b
        · have h' : (a :: inner ++ outer).head? = some b := h
          rw [track_of_closes hc h, track_of_closes hc h']
          rfl
        · have h' : (a :: inner ++ outer).head? ≠ some b := h
          rw [track_of_stray hc h, track_of_stray hc h']

/-- Tokens can close brackets that were open around them, but only from the inside out. -/
lemma after_within (inner outer : List Bracket) (ts : List Token) :
    ∃ rest, rest <:+ outer ∧ after (inner ++ outer) ts = after inner ts ++ rest := by
  induction ts generalizing inner outer with
  | nil => exact ⟨outer, List.suffix_rfl, rfl⟩
  | cons t ts ih =>
    obtain ⟨rest, hs, ht⟩ := track_within inner outer t.kind
    obtain ⟨rest', hs', ht'⟩ := ih (track inner t.kind) rest
    refine ⟨rest', hs'.trans hs, ?_⟩
    rw [← ht] at ht'
    exact ht'

/-- What closes all brackets around it leaves none open that it opened itself. -/
lemma after_nil_of_after {outer : List Bracket} {ts : List Token} (h : after outer ts = []) :
    after [] ts = [] := by
  obtain ⟨rest, -, ht⟩ := after_within [] outer ts
  rw [List.nil_append, h] at ht
  exact (List.append_eq_nil_iff.mp ht.symm).1

/-- A bracket that is open behind a token was open before or opens with the token. -/
lemma mem_track {b : Bracket} {brackets : List Bracket} {k : Kind} (h : b ∈ track brackets k) :
    b ∈ brackets ∨ k.opens? = some b := by
  cases ho : k.opens? with
  | some a =>
    rw [track_of_opens ho] at h
    cases h with
    | head => exact .inr rfl
    | tail _ h => exact .inl h
  | none =>
    cases hc : k.closes? with
    | none =>
      rw [track_of_neither ho hc] at h
      exact .inl h
    | some a =>
      by_cases hh : brackets.head? = some a
      · rw [track_of_closes hc hh] at h
        exact .inl (List.mem_of_mem_tail h)
      · rw [track_of_stray hc hh] at h
        exact .inl h

/-- A bracket that is open behind some tokens was open before or is opened by one of them. -/
lemma mem_after {b : Bracket} {brackets : List Bracket} {ts : List Token}
    (h : b ∈ after brackets ts) : b ∈ brackets ∨ ∃ t ∈ ts, t.kind.opens? = some b := by
  induction ts generalizing brackets with
  | nil => exact .inl h
  | cons t ts ih =>
    obtain hb | ⟨u, hu, ho⟩ := ih h
    · obtain hb | ho := mem_track hb
      · exact .inl hb
      · exact .inr ⟨t, List.mem_cons_self, ho⟩
    · exact .inr ⟨u, List.mem_cons_of_mem t hu, ho⟩

/-- The outermost bracket stays open until it is closed as the last one. -/
lemma getLast?_track {brackets : List Bracket} {k : Kind} (hb : brackets ≠ []) :
    (track brackets k).getLast? = brackets.getLast? ∨
      track brackets k = [] ∧ ∃ b, brackets = [b] ∧ k.closes? = some b := by
  obtain ⟨a, bs, rfl⟩ := List.exists_cons_of_ne_nil hb
  cases ho : k.opens? with
  | some b =>
    rw [track_of_opens ho]
    exact .inl rfl
  | none =>
    cases hc : k.closes? with
    | none =>
      rw [track_of_neither ho hc]
      exact .inl rfl
    | some b =>
      by_cases hh : (a :: bs).head? = some b
      · rw [track_of_closes hc hh]
        cases bs with
        | nil => exact .inr ⟨rfl, a, rfl, hh.symm⟩
        | cons c cs => exact .inl rfl
      · rw [track_of_stray hc hh]
        exact .inl rfl

end Bracket

open CssSyntax.Bracket

namespace Nested

/-- Behind a nested list the brackets around it are open as before. -/
lemma after_eq {ts : List Token} (h : Nested ts) (brackets : List Bracket) :
    after brackets ts = brackets := by
  induction h generalizing brackets with
  | nil => rfl
  | @cons t ts ho hc _ _ ih =>
    show after (track brackets t.kind) ts = brackets
    rw [track_of_neither ho hc, ih]
  | @enclose o c b inner ts ho hc _ _ ihi iht =>
    show after (track brackets o.kind) (inner ++ c :: ts) = brackets
    rw [track_of_opens ho, after_append, ihi]
    show after (track (b :: brackets) c.kind) ts = brackets
    rw [track_of_closes hc rfl]
    exact iht brackets

/-- The end of the input stands in no nested list. -/
lemma ne_eof {ts : List Token} (h : Nested ts) : ∀ t ∈ ts, t.kind ≠ .eof := by
  induction h with
  | nil => nofun
  | cons _ _ hne _ ih => exact List.forall_mem_cons.mpr ⟨hne, ih⟩
  | enclose ho hc _ _ ihi iht =>
    refine List.forall_mem_append.mpr ⟨List.forall_mem_cons.mpr ⟨?_, ihi⟩,
      List.forall_mem_cons.mpr ⟨?_, iht⟩⟩
    · intro he
      rw [he] at ho
      cases ho
    · intro he
      rw [he] at hc
      cases hc

/-- What closes a bracket of a nested list closes the innermost one that is open. -/
lemma head?_after {ts us vs : List Token} {t : Token} {b : Bracket} (h : Nested ts)
    (hts : ts = us ++ t :: vs) (hb : t.kind.closes? = some b) (brackets : List Bracket) :
    (after brackets us).head? = some b := by
  induction h generalizing us vs brackets with
  | nil => exact absurd hts.symm (List.append_ne_nil_of_right_ne_nil us (List.cons_ne_nil t vs))
  | @cons t' ts ho hc _ _ ih =>
    cases us with
    | nil =>
      cases hts
      rw [hb] at hc
      cases hc
    | cons u us =>
      obtain ⟨rfl, htail⟩ := List.cons.inj hts
      show (after (track brackets t'.kind) us).head? = some b
      exact ih htail _
  | @enclose o c b' inner ts ho hc hi _ ihi iht =>
    cases us with
    | nil =>
      cases hts
      rw [Kind.opens?_eq_none hb] at ho
      cases ho
    | cons u us =>
      obtain ⟨rfl, htail⟩ := List.cons.inj hts
      have htail : inner ++ c :: ts = us ++ t :: vs := htail
      show (after (track brackets o.kind) us).head? = some b
      rw [track_of_opens ho]
      -- the token stands inside of the brackets, closes them, or stands behind them
      obtain ⟨ws, rfl, hws⟩ | ⟨ws, rfl, hws⟩ := List.append_eq_append_iff.mp htail
      · rw [after_append, hi.after_eq]
        cases ws with
        | nil =>
          cases hws
          rw [hc] at hb
          cases hb
          rfl
        | cons w ws =>
          cases hws
          show (after (track (b' :: brackets) c.kind) ws).head? = some b
          exact iht rfl _
      · cases ws with
        | nil =>
          cases hws
          rw [hc] at hb
          cases hb
          rw [List.append_nil] at hi
          rw [hi.after_eq]
          rfl
        | cons w ws =>
          cases hws
          exact ihi rfl _

/-- What is left of a nested list closes all brackets that it opens. -/
lemma after_rest {us vs : List Token} (h : Nested (us ++ vs)) : after [] vs = [] := by
  have ha := h.after_eq []
  rw [after_append] at ha
  exact after_nil_of_after ha

end Nested

/-! ### Tokens outside of all brackets -/

/-- Outside of all brackets stands the first token if none is open there, and what stands so behind
it. -/
lemma mem_outsideWithin_cons {brackets : List Bracket} {t u : Token} {ts : List Token} :
    u ∈ outsideWithin brackets (t :: ts) ↔
      brackets = [] ∧ u = t ∨ u ∈ outsideWithin (track brackets t.kind) ts := by
  show u ∈ (if brackets = [] then t :: outsideWithin (track brackets t.kind) ts
    else outsideWithin (track brackets t.kind) ts) ↔ _
  split
  · next hb =>
    rw [List.mem_cons]
    exact or_congr_left ⟨fun h => ⟨hb, h⟩, fun h => h.2⟩
  · next hb => exact ⟨.inr, fun h => h.resolve_left fun hn => hb hn.1⟩

/-- The tokens outside of brackets in two lists are those of the first and of the second behind it.
-/
lemma mem_outsideWithin_append {brackets : List Bracket} {us vs : List Token} {t : Token} :
    t ∈ outsideWithin brackets (us ++ vs) ↔
      t ∈ outsideWithin brackets us ∨ t ∈ outsideWithin (after brackets us) vs := by
  induction us generalizing brackets with
  | nil => exact ⟨.inr, fun h => h.resolve_left nofun⟩
  | cons u us ih =>
    rw [List.cons_append, mem_outsideWithin_cons, mem_outsideWithin_cons, ih, or_assoc]
    rfl

/-- A token outside of all brackets has none open in front of it. -/
lemma after_eq_nil_of_mem_outside {brackets : List Bracket} {ts : List Token} {t : Token}
    (h : t ∈ outsideWithin brackets ts) :
    ∃ us vs, ts = us ++ t :: vs ∧ after brackets us = [] := by
  induction ts generalizing brackets with
  | nil => cases h
  | cons u ts ih =>
    obtain ⟨hb, rfl⟩ | h := mem_outsideWithin_cons.mp h
    · exact ⟨[], ts, rfl, hb⟩
    · obtain ⟨us, vs, rfl, ha⟩ := ih h
      exact ⟨u :: us, vs, rfl, ha⟩

end CssSyntax
