import CssSyntax.Proofs.Failures
import CssSyntax.Proofs.Nesting

/-!
# Recovery

Where recovery comes to a halt. `Boundary.Passes` are the tokens that it skips, and behind a broken
construct it gets where it should exactly if it passes all that is left of the construct
(`Parser.resync_unread_iff`).

What is left may stand inside of brackets that were read before the error. Recovery does not know of
them, so a `;` or a `{` directly inside of them counts as if it stood outside, and only those do harm.
-/

namespace CssSyntax

open CssSyntax.Bracket

/-- Tokens that recovery skips, inside the given open brackets. -/
inductive Boundary.Passes (boundary : Boundary) : List Bracket → List Token → Prop where
  | nil {brackets : List Bracket} : Passes boundary brackets []
  | cons {brackets : List Bracket} {t : Token} {ts : List Token} :
    t.kind ≠ .eof → boundary.verdict brackets t.kind = .skip →
      Passes boundary (track brackets t.kind) ts → Passes boundary brackets (t :: ts)

namespace Boundary

variable {boundary : Boundary} {brackets : List Bracket}

/-- Recovery passes two lists if it passes the first and, behind it, the second. -/
lemma passes_append {us vs : List Token} :
    boundary.Passes brackets (us ++ vs) ↔
      boundary.Passes brackets us ∧ boundary.Passes (after brackets us) vs := by
  induction us generalizing brackets with
  | nil => exact ⟨fun h => ⟨.nil, h⟩, fun h => h.2⟩
  | cons u us ih =>
    constructor
    · intro h
      cases h with
      | cons hne hv h =>
        obtain ⟨hus, hvs⟩ := ih.mp h
        exact ⟨.cons hne hv hus, hvs⟩
    · intro h
      obtain ⟨hus, hvs⟩ := h
      cases hus with
      | cons hne hv hus => exact .cons hne hv (ih.mpr ⟨hus, hvs⟩)

/-- Tokens that are not all skipped have a first one that is not. -/
lemma passes_or_halts (brackets : List Bracket) {ts : List Token}
    (hne : ∀ t ∈ ts, t.kind ≠ .eof) :
    boundary.Passes brackets ts ∨
      ∃ us t vs, ts = us ++ t :: vs ∧ boundary.Passes brackets us ∧
        boundary.verdict (after brackets us) t.kind ≠ .skip := by
  induction ts generalizing brackets with
  | nil => exact .inl .nil
  | cons t ts ih =>
    obtain ⟨ht, hts⟩ := List.forall_mem_cons.mp hne
    by_cases hv : boundary.verdict brackets t.kind = .skip
    · obtain h | ⟨us, u, vs, rfl, hp, hu⟩ := ih (track brackets t.kind) hts
      · exact .inl (.cons ht hv h)
      · exact .inr ⟨t :: us, u, vs, rfl, .cons ht hv hp, hu⟩
    · exact .inr ⟨[], t, ts, rfl, .nil, hv⟩

end Boundary

namespace Parser

variable {boundary : Boundary} {brackets : List Bracket} {p : Parser}

/-- Recovery goes on behind a token that it skips. -/
lemma resyncWithin_of_skip (hne : p.kind ≠ .eof)
    (hv : boundary.verdict brackets p.kind = .skip) :
    p.resyncWithin boundary brackets =
      p.advance.resyncWithin boundary (track brackets p.kind) := by
  rw [resyncWithin, dif_neg hne, hv]

/-- Recovery ends behind a token that it stops behind. -/
lemma resyncWithin_of_stopBehind (hne : p.kind ≠ .eof)
    (hv : boundary.verdict brackets p.kind = .stopBehind) :
    p.resyncWithin boundary brackets = p.advance := by
  rw [resyncWithin, dif_neg hne, hv]

/-- Recovery ends on a token that it stops in front of. -/
lemma resyncWithin_of_stopBefore (hne : p.kind ≠ .eof)
    (hv : boundary.verdict brackets p.kind = .stopBefore) :
    p.resyncWithin boundary brackets = p := by
  rw [resyncWithin, dif_neg hne, hv]

/-- Recovery reads across the tokens that it skips, and goes on with the brackets open behind them. -/
lemma resyncWithin_of_passes {us vs : List Token} (h : boundary.Passes brackets us)
    (hu : p.unread = us ++ vs) :
    ∃ q : Parser, q.unread = vs ∧
      p.resyncWithin boundary brackets = q.resyncWithin boundary (after brackets us) := by
  induction h generalizing p with
  | nil => exact ⟨p, hu, rfl⟩
  | @cons brackets t us hne hv _ ih =>
    obtain ⟨rfl, ha⟩ := unread_advance hu hne
    obtain ⟨q, hq, he⟩ := ih ha
    exact ⟨q, hq, (resyncWithin_of_skip hne hv).trans he⟩

/-- Recovery reaches the end of a construct if it passes the rest of it, and only then: otherwise it
comes to a halt before that end. -/
lemma resyncWithin_unread_iff {s : Token} {us vs : List Token}
    (hu : p.unread = us ++ s :: vs) (hus : ∀ t ∈ us, t.kind ≠ .eof) (hs : s.kind ≠ .eof)
    (hv : boundary.verdict (after brackets us) s.kind = .stopBehind) :
    (p.resyncWithin boundary brackets).unread = vs ↔ boundary.Passes brackets us := by
  constructor
  · intro h
    obtain hp | ⟨xs, t, ys, rfl, hp, ht⟩ := Boundary.passes_or_halts brackets hus
    · exact hp
    · exfalso
      have hne : t.kind ≠ .eof := hus t (List.mem_append_right xs List.mem_cons_self)
      rw [List.append_assoc, List.cons_append] at hu
      obtain ⟨q, hq, he⟩ := resyncWithin_of_passes hp hu
      obtain ⟨rfl, ha⟩ := unread_advance hq hne
      have hhalt : ∃ ws, (q.resyncWithin boundary (after brackets xs)).unread =
          ws ++ (ys ++ s :: vs) := by
        cases hk : boundary.verdict (after brackets xs) q.kind with
        | skip => exact absurd hk ht
        | stopBehind =>
          rw [resyncWithin_of_stopBehind hne hk, ha]
          exact ⟨[], rfl⟩
        | stopBefore =>
          rw [resyncWithin_of_stopBefore hne hk, hq]
          exact ⟨[q.current], rfl⟩
      obtain ⟨ws, hws⟩ := hhalt
      rw [he, hws] at h
      -- more tokens are left than stand behind the end
      have hl := congrArg List.length h
      simp only [List.length_append, List.length_cons] at hl
      omega
  · intro hp
    obtain ⟨q, hq, he⟩ := resyncWithin_of_passes hp hu
    obtain ⟨rfl, ha⟩ := unread_advance hq hs
    rw [he, resyncWithin_of_stopBehind hs hv, ha]

/-- Recovery ends behind a boundary if and only if it passes what stands before it. -/
lemma resync_unread_iff {s : Token} {us vs : List Token}
    (hu : p.unread = us ++ s :: vs) (hus : ∀ t ∈ us, t.kind ≠ .eof) (hs : s.kind ≠ .eof)
    (hv : boundary.verdict (after [] us) s.kind = .stopBehind) :
    (p.resync boundary).unread = vs ↔ boundary.Passes [] us :=
  resyncWithin_unread_iff (p := p.note (.resyncing boundary p.current)) hu hus hs hv

end Parser

/-! ### What is left of a declaration -/

/-- The search for the end of a declaration skips all but a `;` or `}` outside of brackets. -/
lemma verdict_declaration_skip {brackets : List Bracket} {k : Kind} :
    Boundary.verdict .declaration brackets k = .skip ↔
      (brackets = [] → k ≠ .semicolon ∧ k ≠ .rcurly) := by
  unfold Boundary.verdict
  dsimp only
  split
  · next hb =>
    split
    · next hk => exact ⟨nofun, fun h => absurd hk (h hb).1⟩
    · next hk =>
      split
      · next hr => exact ⟨nofun, fun h => absurd hr (h hb).2⟩
      · next hr => exact ⟨fun _ _ => ⟨hk, hr⟩, fun _ => rfl⟩
  · next hb => exact ⟨fun _ h => absurd h hb, fun _ => rfl⟩

/-- The search for the end of a declaration passes tokens without a `;` or `}` outside of brackets.
-/
lemma passes_declaration_iff {brackets : List Bracket} {ts : List Token}
    (hne : ∀ t ∈ ts, t.kind ≠ .eof) :
    Boundary.Passes .declaration brackets ts ↔
      ∀ t ∈ outsideWithin brackets ts, t.kind ≠ .semicolon ∧ t.kind ≠ .rcurly := by
  induction ts generalizing brackets with
  | nil => exact ⟨nofun, fun _ => .nil⟩
  | cons t ts ih =>
    obtain ⟨ht, hts⟩ := List.forall_mem_cons.mp hne
    constructor
    · intro h
      cases h with
      | cons _ hv h =>
        intro u hu
        obtain ⟨hb, rfl⟩ | hu := mem_outsideWithin_cons.mp hu
        · exact verdict_declaration_skip.mp hv hb
        · exact (ih hts).mp h u hu
    · intro h
      refine .cons ht (verdict_declaration_skip.mpr fun hb => ?_) ((ih hts).mpr fun u hu => ?_)
      · exact h t (mem_outsideWithin_cons.mpr (.inl ⟨hb, rfl⟩))
      · exact h u (mem_outsideWithin_cons.mpr (.inr hu))

/-- A `}` outside of all brackets of the rest closes a brace that was read before. -/
lemma Nested.ne_rcurly {us vs : List Token} (h : Nested (us ++ vs))
    (hus : ∀ t ∈ us, t.kind.Inner) : ∀ t ∈ outside vs, t.kind ≠ .rcurly := by
  intro t ht hk
  obtain ⟨xs, ys, rfl, hx⟩ := after_eq_nil_of_mem_outside ht
  have hc : t.kind.closes? = some .curly := congrArg Kind.closes? hk
  have hh := h.head?_after (List.append_assoc us xs (t :: ys)).symm hc []
  rw [after_append] at hh
  -- the count behind the rest consists of brackets that were open in front of it
  obtain ⟨rest, hr, ha⟩ := after_within [] (after [] us) xs
  rw [hx, List.nil_append, List.nil_append] at ha
  rw [ha] at hh
  have hm : Bracket.curly ∈ after [] us := hr.subset (List.mem_of_head? hh)
  obtain hm | ⟨u, hu, ho⟩ := mem_after hm
  · cases hm
  · have hi := hus u hu
    rw [Kind.eq_lcurly ho] at hi
    cases hi

/-! ### What is left of a ruleset -/

/-- The search for the end of a block skips all but the brace that closes the only open bracket. -/
lemma verdict_block_skip {brackets : List Bracket} {k : Kind} :
    Boundary.verdict .block brackets k = .skip ↔ ¬ (brackets = [.curly] ∧ k = .rcurly) := by
  unfold Boundary.verdict
  dsimp only
  split
  · next h => exact ⟨nofun, fun hn => absurd h hn⟩
  · next h => exact ⟨fun _ => h, fun _ => rfl⟩

/-- Inside of a bracket, a token can be a boundary only by closing it as the last one. -/
lemma verdict_within {boundary : Boundary} {brackets : List Bracket} {k : Kind}
    (hb : brackets ≠ []) (hk : ¬ (brackets = [.curly] ∧ k = .rcurly)) :
    boundary.verdict brackets k = .skip := by
  cases boundary with
  | declaration => exact verdict_declaration_skip.mpr fun hn => absurd hn hb
  | block => exact verdict_block_skip.mpr hk

/-- Inside of a bracket, all of a nested list is skipped. -/
lemma Nested.passes {ts : List Token} (h : Nested ts) {boundary : Boundary}
    {brackets : List Bracket} (hb : brackets ≠ []) : boundary.Passes brackets ts := by
  induction h generalizing brackets with
  | nil => exact .nil
  | @cons t ts ho hc hne _ ih =>
    refine .cons hne (verdict_within hb ?_) ?_
    · intro hk
      rw [hk.2] at hc
      cases hc
    · rw [track_of_neither ho hc]
      exact ih hb
  | @enclose o c b inner ts ho hc hi _ ihi iht =>
    have hne := (Nested.enclose ho hc hi .nil).ne_eof
    refine .cons (hne o List.mem_cons_self) (verdict_within hb ?_) ?_
    · intro hk
      rw [hk.2] at ho
      cases ho
    · rw [track_of_opens ho]
      refine Boundary.passes_append.mpr ⟨ihi (List.cons_ne_nil b brackets), ?_⟩
      rw [hi.after_eq]
      -- a bracket is open around the one that is closed here
      refine .cons (hne c (List.mem_append_right _ List.mem_cons_self))
        (verdict_within (List.cons_ne_nil b brackets) ?_) ?_
      · intro hk
        exact hb (List.cons.inj hk.1).2
      · rw [track_of_closes hc rfl]
        exact iht hb

/-- A brace that recovery counts as the outermost bracket stays open behind all that it skips. -/
lemma Boundary.Passes.getLast?_after {brackets : List Bracket} {ts : List Token}
    (h : Boundary.Passes .block brackets ts) (hb : brackets.getLast? = some .curly) :
    (after brackets ts).getLast? = some .curly := by
  induction h with
  | nil => exact hb
  | @cons brackets t ts _ hv _ ih =>
    apply ih
    have hne : brackets ≠ [] := by
      intro hn
      rw [hn] at hb
      cases hb
    obtain hl | ⟨-, b, rfl, hc⟩ := getLast?_track (k := t.kind) hne
    · rw [hl, hb]
    · -- the brace that closes it is not skipped
      cases hb
      exact absurd ⟨rfl, Kind.eq_rcurly hc⟩ (verdict_block_skip.mp hv)

/-- Recovery passes what opens no brace outside of all brackets. -/
lemma passes_block_of_outside {brackets : List Bracket} {ts : List Token}
    (hne : ∀ t ∈ ts, t.kind ≠ .eof) (hb : brackets.getLast? ≠ some .curly)
    (h : ∀ t ∈ outsideWithin brackets ts, t.kind ≠ .lcurly) :
    Boundary.Passes .block brackets ts := by
  induction ts generalizing brackets with
  | nil => exact .nil
  | cons t ts ih =>
    obtain ⟨ht, hts⟩ := List.forall_mem_cons.mp hne
    refine .cons ht (verdict_block_skip.mpr ?_) (ih hts ?_ ?_)
    · intro hk
      rw [hk.1] at hb
      exact hb rfl
    · by_cases hn : brackets = []
      · subst hn
        have hk := h t (mem_outsideWithin_cons.mpr (.inl ⟨rfl, rfl⟩))
        intro hl
        obtain hm | ho := mem_track (List.mem_of_getLast? hl)
        · cases hm
        · exact hk (Kind.eq_lcurly ho)
      · obtain hl | ⟨hl, -⟩ := getLast?_track (k := t.kind) hn
        · rw [hl]
          exact hb
        · rw [hl]
          nofun
    · exact fun u hu => h u (mem_outsideWithin_cons.mpr (.inr hu))

/-- The search for the end of a block passes nested tokens without a `{` outside of brackets. -/
lemma passes_block_iff {ts : List Token} (hne : ∀ t ∈ ts, t.kind ≠ .eof)
    (ha : after [] ts = []) :
    Boundary.Passes .block [] ts ↔ ∀ t ∈ outside ts, t.kind ≠ .lcurly := by
  constructor
  · intro h t ht hk
    obtain ⟨us, vs, rfl, hu⟩ := after_eq_nil_of_mem_outside ht
    obtain ⟨-, hvs⟩ := Boundary.passes_append.mp h
    rw [after_append, hu] at ha
    rw [hu] at hvs
    cases hvs with
    | cons _ _ hvs =>
      rw [hk] at hvs
      -- a block that was entered would still be open at the end, but nothing is
      have hl := hvs.getLast?_after rfl
      have ha : after (track [] t.kind) vs = [] := ha
      rw [hk] at ha
      rw [ha] at hl
      cases hl
  · exact passes_block_of_outside hne nofun

/-- Recovery from a broken declaration gets behind its `;` unless what is left of it has one outside
of all brackets already. -/
lemma resync_declaration_iff {p : Parser} {us vs rest : List Token} {s : Token}
    (h : Nested (us ++ vs)) (hus : ∀ t ∈ us, t.kind.Inner) (hs : s.kind = .semicolon)
    (hu : p.unread = vs ++ s :: rest) :
    (p.resync .declaration).unread = rest ↔ ∀ t ∈ outside vs, t.kind ≠ .semicolon := by
  have hne : ∀ t ∈ vs, t.kind ≠ .eof := (List.forall_mem_append.mp h.ne_eof).2
  have hv : Boundary.verdict .declaration (after [] vs) s.kind = .stopBehind := by
    rw [h.after_rest, hs]
    rfl
  rw [Parser.resync_unread_iff hu hne (by rw [hs]; nofun) hv, passes_declaration_iff hne]
  constructor
  · exact fun ho t ht => (ho t ht).1
  · exact fun ho t ht => ⟨ho t ht, h.ne_rcurly hus t ht⟩

/-- Recovery from a broken ruleset gets behind its block unless what is left in front of the block
has a `{` outside of all brackets already. -/
lemma resync_block_iff {p : Parser} {us vs bs rest : List Token} {l r : Token}
    (h : Nested (us ++ vs)) (hb : Nested bs) (hl : l.kind = .lcurly) (hr : r.kind = .rcurly)
    (hu : p.unread = vs ++ l :: (bs ++ r :: rest)) :
    (p.resync .block).unread = rest ↔ ∀ t ∈ outside vs, t.kind ≠ .lcurly := by
  have hne : ∀ t ∈ vs, t.kind ≠ .eof := (List.forall_mem_append.mp h.ne_eof).2
  have hlne : l.kind ≠ .eof := by
    rw [hl]
    nofun
  -- in front of the closing brace, only the bracket of the block is open
  have hblock : after [] (vs ++ l :: bs) = [.curly] := by
    rw [after_append, h.after_rest]
    show after (track [] l.kind) bs = [.curly]
    rw [hl]
    exact hb.after_eq [.curly]
  have hv : Boundary.verdict .block (after [] (vs ++ l :: bs)) r.kind = .stopBehind := by
    rw [hblock, hr]
    rfl
  have hu : p.unread = (vs ++ l :: bs) ++ r :: rest := by
    rw [hu, List.append_assoc]
    rfl
  have hall : ∀ t ∈ vs ++ l :: bs, t.kind ≠ .eof :=
    List.forall_mem_append.mpr ⟨hne, List.forall_mem_cons.mpr ⟨hlne, hb.ne_eof⟩⟩
  rw [Parser.resync_unread_iff hu hall (by rw [hr]; nofun) hv, ← passes_block_iff hne h.after_rest,
    Boundary.passes_append, h.after_rest]
  refine ⟨fun ho => ho.1, fun ho => ⟨ho, .cons hlne (verdict_block_skip.mpr ?_) ?_⟩⟩
  · exact fun hn => List.cons_ne_nil _ _ hn.1.symm
  · rw [hl]
    exact hb.passes (List.cons_ne_nil _ _)

/-! ### Where a construct breaks -/

/-- Tokens that can stand inside a construct do not reach past the token that ends it. -/
lemma split_of_inner {ts us vs rest : List Token} {s : Token} (h : ts ++ s :: rest = us ++ vs)
    (hus : ∀ t ∈ us, t.kind.Inner) (hs : ¬ s.kind.Inner) :
    ∃ ws, ts = us ++ ws ∧ vs = ws ++ s :: rest := by
  obtain ⟨ws, rfl, hw⟩ | hws := List.append_eq_append_iff.mp h
  · cases ws with
    | nil => exact ⟨[], by rw [List.append_nil, List.append_nil], hw.symm⟩
    | cons w ws =>
      obtain ⟨rfl, -⟩ := List.cons.inj hw
      exact absurd (hus s (List.mem_append_right ts List.mem_cons_self)) hs
  · exact hws

namespace Grammar

open ParseM

/-- A declaration is dropped where it breaks, and recovery goes on from there. -/
lemma declaration_none {p q : Parser} (h : declaration p = (.ok none, q)) :
    ∃ e r ts, property (p.note (.tried .declaration)) = (.error e, r) ∧
      q = (r.note (.ignoredError .declaration e)).resync .declaration ∧
      p.Reads ts r ∧ ∀ t ∈ ts, t.kind.Inner := by
  have h : orResync .declaration .declaration property (p.note (.tried .declaration)) =
      (.ok none, q) := h
  cases property_run (p.note (.tried .declaration)) with
  | ok he =>
    rw [orResync_of_ok _ _ he] at h
    cases h
  | @error ts e r he hr hk hp =>
    rw [orResync_of_error _ _ he hp.isRecoverable] at h
    cases h
    exact ⟨e, r, ts, he, rfl, hr.note_trans, hk⟩

/-- A broken construct is skipped as a whole, up to the `;` behind a declaration or the `}` of the
block behind selectors, if and only if what is left of it at the error has no `;` or no `{` outside of
all brackets. Brackets that were open at the error do not count there. -/
theorem broken_construct_skipped_iff (p q : Parser) (ts rest : List Token) (h : Nested ts) :
    (∀ s : Token, s.kind = .semicolon → p.unread = ts ++ s :: rest →
      declaration p = (.ok none, q) →
      ∃ us vs e r, ts = us ++ vs ∧ property (p.note (.tried .declaration)) = (.error e, r) ∧
        r.unread = vs ++ s :: rest ∧
        (q.unread = rest ↔ ∀ t ∈ outside vs, t.kind ≠ .semicolon)) ∧
    (∀ (bs : List Token) (l r : Token) (e : ParseError), Nested bs → l.kind = .lcurly →
      r.kind = .rcurly → p.unread = ts ++ l :: (bs ++ r :: rest) → ruleset p = (.error e, q) →
      ∃ us vs, ts = us ++ vs ∧ q.unread = vs ++ l :: (bs ++ r :: rest) ∧
        ((q.resync .block).unread = rest ↔ ∀ t ∈ outside vs, t.kind ≠ .lcurly)) := by
  constructor
  · intro s hs hp hq
    obtain ⟨e, r, us, he, rfl, hr, hus⟩ := declaration_none hq
    have hinner : ¬ s.kind.Inner := by
      rw [hs]
      nofun
    -- what a failed reading has taken is inner, so the `;` is still to come
    obtain ⟨vs, rfl, hu⟩ := split_of_inner (hp.symm.trans hr.unread) hus hinner
    exact ⟨us, vs, e, r, rfl, he, hu, resync_declaration_iff h hus hs hu⟩
  · intro bs l r e hb hl hr hp hq
    obtain ⟨us, hread, hus⟩ := ruleset_error hq
    have hinner : ¬ l.kind.Inner := by
      rw [hl]
      nofun
    obtain ⟨vs, rfl, hu⟩ := split_of_inner (hp.symm.trans hread.unread) hus hinner
    exact ⟨us, vs, rfl, hu, resync_block_iff h hb hl hr hu⟩

/-- The tokens of `a:f(;)`. -/
def semicolonInCall : List Token :=
  [.ident "a", .colon, .function "f", .semicolon, .rparen].map (Token.mk · .origin)

/-- The tokens of `a[{}]`. -/
def blockInCondition : List Token :=
  [.ident "a", .lbracket, .lcurly, .rcurly, .rbracket].map (Token.mk · .origin)

/-- The tokens of `a:f(;)` are nested. -/
lemma nested_semicolonInCall : Nested semicolonInCall := by
  refine .cons rfl rfl (by decide) (.cons rfl rfl (by decide) ?_)
  refine @Nested.enclose ⟨.function "f", .origin⟩ ⟨.rparen, .origin⟩ .paren
    [⟨.semicolon, .origin⟩] [] rfl rfl ?_ .nil
  exact .cons rfl rfl (by decide) .nil

/-- The tokens of `a[{}]` are nested. -/
lemma nested_blockInCondition : Nested blockInCondition := by
  refine .cons rfl rfl (by decide) ?_
  refine @Nested.enclose ⟨.lbracket, .origin⟩ ⟨.rbracket, .origin⟩ .square
    [⟨.lcurly, .origin⟩, ⟨.rcurly, .origin⟩] [] rfl rfl ?_ .nil
  exact @Nested.enclose _ _ .curly [] [] rfl rfl .nil .nil

/-- The parser of `a:f(;);`. -/
def brokenDeclaration : Parser :=
  .ofSource (.tokens (semicolonInCall ++ [⟨.semicolon, .origin⟩])) {}

/-- The parser of `a[{}]{}`. -/
def brokenRuleset : Parser :=
  .ofSource (.tokens (blockInCondition ++ [⟨.lcurly, .origin⟩, ⟨.rcurly, .origin⟩])) {}

/-- Both break inside of brackets. -/
theorem broken_construct_skipped_iff_examples :
    (∃ q us vs e r, declaration brokenDeclaration = (.ok none, q) ∧ semicolonInCall = us ++ vs ∧
      property (brokenDeclaration.note (.tried .declaration)) = (.error e, r) ∧
      r.unread = vs ++ [⟨.semicolon, .origin⟩, ⟨.eof, .origin⟩] ∧
      (q.unread = [⟨.eof, .origin⟩] ↔ ∀ t ∈ outside vs, t.kind ≠ .semicolon)) ∧
    (∃ e q us vs, ruleset brokenRuleset = (.error e, q) ∧ blockInCondition = us ++ vs ∧
      q.unread = vs ++ [⟨.lcurly, .origin⟩, ⟨.rcurly, .origin⟩, ⟨.eof, .origin⟩] ∧
      ((q.resync .block).unread = [⟨.eof, .origin⟩] ↔ ∀ t ∈ outside vs, t.kind ≠ .lcurly)) := by
  constructor
  · obtain ⟨d, q, h⟩ := declaration_total brokenDeclaration
    have hd : (declaration brokenDeclaration).1.toOption = some none := by decide +kernel
    rw [h] at hd
    cases hd
    have hu : brokenDeclaration.unread =
        semicolonInCall ++ [⟨.semicolon, .origin⟩, ⟨.eof, .origin⟩] := by
      rw [brokenDeclaration, Parser.unread_ofSource_tokens nested_semicolonInCall.ne_eof]
      decide +kernel
    obtain ⟨us, vs, e, r, hr⟩ := (broken_construct_skipped_iff brokenDeclaration q semicolonInCall
      [⟨.eof, .origin⟩] nested_semicolonInCall).1 ⟨.semicolon, .origin⟩ rfl hu h
    exact ⟨q, us, vs, e, r, h, hr⟩
  · rcases h : ruleset brokenRuleset with ⟨e | _, q⟩
    · have hu : brokenRuleset.unread =
          blockInCondition ++ [⟨.lcurly, .origin⟩, ⟨.rcurly, .origin⟩, ⟨.eof, .origin⟩] := by
        rw [brokenRuleset, Parser.unread_ofSource_tokens nested_blockInCondition.ne_eof]
        decide +kernel
      obtain ⟨us, vs, hr⟩ := (broken_construct_skipped_iff brokenRuleset q blockInCondition
        [⟨.eof, .origin⟩] nested_blockInCondition).2 [] ⟨.lcurly, .origin⟩ ⟨.rcurly, .origin⟩ e .nil
        rfl rfl hu h
      exact ⟨e, q, us, vs, rfl, hr⟩
    · have hn : (ruleset brokenRuleset).1.toOption = none := by decide +kernel
      rw [h] at hn
      cases hn

/-- Neither of them is skipped as a whole, although their `;` and `{` stand inside of brackets. -/
theorem broken_construct_not_skipped :
    (Nested semicolonInCall ∧ (∀ t ∈ outside semicolonInCall, t.kind ≠ .semicolon) ∧
      (declaration brokenDeclaration).1.toOption = some none ∧
      (declaration brokenDeclaration).2.unread ≠ [⟨.eof, .origin⟩]) ∧
    (Nested blockInCondition ∧ (∀ t ∈ outside blockInCondition, t.kind ≠ .lcurly) ∧
      (ruleset brokenRuleset).1.toOption = none ∧
      ((ruleset brokenRuleset).2.resync .block).unread ≠ [⟨.eof, .origin⟩]) := by
  refine ⟨⟨nested_semicolonInCall, ?_⟩, nested_blockInCondition, ?_⟩
  · decide +kernel
  · decide +kernel

end Grammar

end CssSyntax
