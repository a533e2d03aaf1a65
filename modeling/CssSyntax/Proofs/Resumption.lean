import CssSyntax.Proofs.Lockstep
import CssSyntax.Proofs.Recovery

/-!
# Where parsing resumes

Recovery depends on nothing but the tokens in front of a parser, and so does the skipping of at-rules:
`Boundary.rest` and `atRuleRest` are what they leave of these tokens. Parsers in lockstep recover in
lockstep if what is left of their tokens is related (`ParseM.Agrees.orResync`).

`Leftover` are the lists that can be left of a nested one behind an error. The error stands inside of
parentheses and square brackets only, so these are nested lists with stray `)` and `]` between them.
No selector and no declaration that starts in such a list reaches behind it, and recovery ends
outside of all its braces (`Leftover.rest_declaration`, `Leftover.rest_block`). That is why a broken
construct does no harm behind the block or the `;` that ends it, even where it is not skipped as a
whole.
-/

namespace CssSyntax

open CssSyntax.Bracket

/-! ### Recovery as a function of the tokens -/

/-- Outside of all brackets no token ends a block. -/
lemma verdict_block_outside (k : Kind) : Boundary.block.verdict [] k = .skip :=
  verdict_block_skip.mpr fun h => nomatch h.1

/-- What recovery leaves of some tokens, inside the given open brackets. -/
def Boundary.restWithin (boundary : Boundary) (brackets : List Bracket) : List Token → List Token
  | [] => []
  | t :: ts =>
    if t.kind = .eof then t :: ts
    else
      match boundary.verdict brackets t.kind with
      | .stopBefore => t :: ts
      | .stopBehind => ts
      | .skip => boundary.restWithin (track brackets t.kind) ts

/-- What recovery leaves of some tokens. -/
def Boundary.rest (boundary : Boundary) (ts : List Token) : List Token :=
  boundary.restWithin [] ts

namespace Boundary

variable {boundary : Boundary} {brackets : List Bracket} {t : Token} {ts : List Token}

/-- The end of the input is left. -/
lemma restWithin_of_eof (h : t.kind = .eof) :
    boundary.restWithin brackets (t :: ts) = t :: ts := by
  rw [restWithin, if_pos h]

/-- A token to stop in front of is left with what is behind it. -/
lemma restWithin_of_stopBefore (hne : t.kind ≠ .eof)
    (hv : boundary.verdict brackets t.kind = .stopBefore) :
    boundary.restWithin brackets (t :: ts) = t :: ts := by
  rw [restWithin, if_neg hne, hv]

/-- Only what is behind a token to stop behind is left. -/
lemma restWithin_of_stopBehind (hne : t.kind ≠ .eof)
    (hv : boundary.verdict brackets t.kind = .stopBehind) :
    boundary.restWithin brackets (t :: ts) = ts := by
  rw [restWithin, if_neg hne, hv]

/-- A token to skip is counted, and the search goes on behind it. -/
lemma restWithin_of_skip (hne : t.kind ≠ .eof) (hv : boundary.verdict brackets t.kind = .skip) :
    boundary.restWithin brackets (t :: ts) =
      boundary.restWithin (track brackets t.kind) ts := by
  rw [restWithin, if_neg hne, hv]

/-- Tokens that recovery passes are counted, and the search goes on behind them. -/
lemma Passes.restWithin {us : List Token} (h : boundary.Passes brackets us) (vs : List Token) :
    boundary.restWithin brackets (us ++ vs) = boundary.restWithin (after brackets us) vs := by
  induction h with
  | nil => rfl
  | cons hne hv _ ih => exact (restWithin_of_skip hne hv).trans ih

/-- Recovery passes what stands between a bracket and the one that closes it. -/
lemma rest_enclosed {o c : Token} {b : Bracket} {inner : List Token} (ho : o.kind.opens? = some b)
    (hi : Nested inner) :
    boundary.rest (o :: (inner ++ c :: ts)) = boundary.restWithin [b] (c :: ts) := by
  have hne : o.kind ≠ .eof := ne_of_apply_ne Kind.opens? (by rw [ho]; nofun)
  have hv : boundary.verdict [] o.kind = .skip := by
    cases boundary with
    | declaration =>
      refine verdict_declaration_skip.mpr fun _ => ⟨?_, ?_⟩
      · exact ne_of_apply_ne Kind.opens? (by rw [ho]; nofun)
      · exact ne_of_apply_ne Kind.opens? (by rw [ho]; nofun)
    | block => exact verdict_block_outside o.kind
  rw [rest, restWithin_of_skip hne hv, track_of_opens ho,
    (hi.passes (List.cons_ne_nil b [])).restWithin, hi.after_eq]

end Boundary

/-- What is left behind the rest of an at-rule, inside the given number of square brackets. -/
def atRuleRest (depth : Nat) : List Token → List Token
  | [] => []
  | t :: ts =>
    match t.kind with
    | .eof => t :: ts
    | .lbracket => atRuleRest (depth + 1) ts
    | .rbracket => if depth = 1 then ts else atRuleRest (depth - 1) ts
    | .semicolon => if depth = 0 then ts else atRuleRest depth ts
    | _ => atRuleRest depth ts

namespace Parser

variable {p q : Parser} {boundary : Boundary}

/-- In front of the end of the input the current token comes off what is left. -/
lemma unread_of_ne_eof (h : p.kind ≠ .eof) : p.unread = p.current :: p.advance.unread :=
  CanMove.unread (.inl h)

/-- Recovery within brackets leaves what the search for its boundary leaves. -/
lemma resyncWithin_unread (boundary : Boundary) (brackets : List Bracket) (p : Parser) :
    (p.resyncWithin boundary brackets).unread = boundary.restWithin brackets p.unread := by
  fun_induction resyncWithin boundary brackets p with
  | case1 brackets p h =>
    obtain ⟨ts, hp⟩ := p.unread_eq_cons
    rw [hp, Boundary.restWithin_of_eof h]
  | case2 brackets p h hv =>
    rw [unread_of_ne_eof h, Boundary.restWithin_of_stopBefore h hv]
  | case3 brackets p h hv =>
    rw [unread_of_ne_eof h, Boundary.restWithin_of_stopBehind h hv]
  | case4 brackets p h hv _ ih =>
    rw [unread_of_ne_eof h, Boundary.restWithin_of_skip h hv, ih]
    rfl

/-- Recovery leaves what the search for its boundary leaves. -/
lemma resync_unread (boundary : Boundary) (p : Parser) :
    (p.resync boundary).unread = boundary.rest p.unread :=
  resyncWithin_unread boundary [] (p.note (.resyncing boundary p.current))

/-- Skipping an at-rule leaves what the search for its end leaves. -/
lemma skipAtRuleWithin_unread (depth : Nat) (p : Parser) :
    (p.skipAtRuleWithin depth).unread = atRuleRest depth p.unread := by
  -- The cases are those of the skipping, and each of them is one of `atRuleRest` on the list.
  fun_induction skipAtRuleWithin depth p with
  | case1 depth p h =>
    obtain ⟨ts, hp⟩ := p.unread_eq_cons
    have hk : p.current.kind = .eof := h
    simp only [hp, atRuleRest, hk]
  | case2 depth p h _ hk ih =>
    have hk : p.current.kind = .lbracket := hk
    simp only [unread_of_ne_eof h, atRuleRest, hk, ih]
  | case3 p h _ hk =>
    have hk : p.current.kind = .rbracket := hk
    simp only [unread_of_ne_eof h, atRuleRest, hk, if_true]
  | case4 depth p h _ hk hd ih =>
    have hk : p.current.kind = .rbracket := hk
    simp only [unread_of_ne_eof h, atRuleRest, hk, if_neg hd, ih]
  | case5 p h _ hk =>
    have hk : p.current.kind = .semicolon := hk
    simp only [unread_of_ne_eof h, atRuleRest, hk, if_true]
  | case6 depth p h _ hk hd ih =>
    have hk : p.current.kind = .semicolon := hk
    simp only [unread_of_ne_eof h, atRuleRest, hk, if_neg hd, ih]
  | case7 depth p h _ hl hr hs ih =>
    rw [unread_of_ne_eof h, ih, atRuleRest]
    split
    · next hk => exact absurd hk h
    · next hk => exact absurd hk hl
    · next hk => exact absurd hk hr
    · next hk => exact absurd hk hs
    · rfl

/-- Parsers in lockstep recover in lockstep if what recovery leaves is related. -/
lemma Facing.resync {L L' : List Token → List Token → Prop} (h : p.Facing L q)
    (hL : L' (boundary.rest p.unread) (boundary.rest q.unread)) :
    (p.resync boundary).Facing L' (q.resync boundary) := by
  obtain ⟨_, hp, -⟩ := p.resync_reads boundary
  obtain ⟨_, hq, -⟩ := q.resync_reads boundary
  refine h.of_reads hp hq ?_
  rw [resync_unread, resync_unread]
  exact hL

end Parser

namespace ParseM

open CssSyntax.Parser (Facing)

/-- A construct that may be dropped, on parsers in lockstep. -/
lemma Agrees.orResync {α : Type} {K : Kind → Prop} {L : List Token → List Token → Prop}
    {E R S : Parser → Parser → Prop} {Q : Parser → List Token → α → Parser → Prop} {m : ParseM α}
    {p q : Parser} (production : Production) (boundary : Boundary) (hm : ∀ p, m.Run K p (Q p))
    (h : m.Agrees (Facing L) p q R) (hR : ∀ p' q', R p' q' → S p' q')
    (hS : ∀ p' q' : Parser, p'.Facing L q' → S (p'.resync boundary) (q'.resync boundary)) :
    (ParseM.orResync production boundary m).Agrees E p q S := by
  cases h with
  | ok hp hq hr =>
    exact .ok (orResync_of_ok production boundary hp) (orResync_of_ok production boundary hq)
      (hR _ _ hr)
  | @error e f p' q' hp hq he =>
    obtain ⟨_, -, -, hep⟩ := (hm p).of_error hp
    obtain ⟨_, -, -, heq⟩ := (hm q).of_error hq
    exact .ok (orResync_of_error production boundary hp hep.isRecoverable)
      (orResync_of_error production boundary hq heq.isRecoverable) (hS _ _ (he.note _ _))

end ParseM

namespace Grammar

open ParseM

/-- What stands in the place of a declaration is read in lockstep if recovery is. -/
lemma declarationItem_agrees {L : List Token → List Token → Prop} (hL : Lockstep Kind.Alike L)
    {E S : Parser → Parser → Prop} (hS : ∀ p q : Parser, p.Facing L q → S p q)
    (hr : ∀ p q : Parser, p.Facing L q → S (p.resync .declaration) (q.resync .declaration))
    {p q : Parser} (h : p.Facing L q) : declarationItem.Agrees E p q S := by
  refine kind_agrees hL ⟨rfl, rfl, rfl, rfl, rfl⟩ h ?_
  split
  · apply Agrees.bind (R := Parser.Facing L) (.change (h.note _ _))
    intro _ p' q' h'
    exact .orResync .declaration .declaration property_run (property_respects hL p' q' h') hS hr
  · exact .ok rfl rfl (hr _ _ (h.note _ _))

end Grammar

/-! ### What is left of a nested list -/

/-- Lists of tokens that can be left of a nested one inside of parentheses and square brackets. -/
inductive Leftover : List Token → Prop where
  | nil : Leftover []
  /-- A token that is no bracket, in front of what is left. -/
  | cons {t : Token} {ts : List Token} :
    t.kind.opens? = none → t.kind.closes? = none → t.kind ≠ .eof → Leftover ts → Leftover (t :: ts)
  /-- A bracket that closes one further out. -/
  | stray {t : Token} {b : Bracket} {ts : List Token} :
    t.kind.closes? = some b → b ≠ .curly → Leftover ts → Leftover (t :: ts)
  /-- A nested list in brackets, in front of what is left. -/
  | enclose {o c : Token} {b : Bracket} {inner ts : List Token} :
    o.kind.opens? = some b → c.kind.closes? = some b → Nested inner → Leftover ts →
      Leftover (o :: (inner ++ c :: ts))

/-- A nested list may stand in front of what is left over. -/
lemma Nested.leftover_append {ts us : List Token} (h : Nested ts) (hu : Leftover us) :
    Leftover (ts ++ us) := by
  induction h with
  | nil => exact hu
  | cons ho hc hne _ ih => exact .cons ho hc hne ih
  | @enclose o c b inner ts ho hc hi _ _ ih =>
    rw [List.append_assoc]
    exact .enclose ho hc hi ih

/-- Nested lists may be left over. -/
lemma Nested.leftover {ts : List Token} (h : Nested ts) : Leftover ts := by
  have hl := h.leftover_append .nil
  rwa [List.append_nil] at hl

/-- What closes a bracket is not the end of the input. -/
lemma Kind.ne_eof_of_closes {k : Kind} {b : Bracket} (h : k.closes? = some b) : k ≠ .eof :=
  ne_of_apply_ne closes? (by rw [h]; nofun)

/-- What closes another bracket is no brace. -/
lemma Kind.ne_rcurly_of_closes {k : Kind} {b : Bracket} (h : k.closes? = some b)
    (hb : b ≠ .curly) : k ≠ .rcurly := by
  apply ne_of_apply_ne closes?
  rw [h]
  exact fun he => hb (Option.some.inj he)

namespace Leftover

/-- What is left behind a token that opens no block. -/
lemma tail {t : Token} {ts : List Token} (h : Leftover (t :: ts)) (hk : t.kind ≠ .lcurly) :
    Leftover ts := by
  cases h with
  | cons _ _ _ h => exact h
  | stray _ _ h => exact h
  | @enclose _ c b inner _ ho hc hi h =>
    -- the bracket that is closed further on is a stray one now
    refine hi.leftover_append (.stray hc ?_ h)
    rintro rfl
    exact hk (Kind.eq_lcurly ho)

/-- A brace that closes nothing does not stand in front. -/
lemma ne_rcurly {t : Token} {ts : List Token} (h : Leftover (t :: ts)) : t.kind ≠ .rcurly := by
  cases h with
  | cons _ hc => exact ne_of_apply_ne Kind.closes? (by rw [hc]; nofun)
  | stray hc hb => exact Kind.ne_rcurly_of_closes hc hb
  | enclose ho => exact ne_of_apply_ne Kind.opens? (by rw [ho]; nofun)

/-- The end of the input is not left over. -/
lemma ne_eof {t : Token} {ts : List Token} (h : Leftover (t :: ts)) : t.kind ≠ .eof := by
  cases h with
  | cons _ _ hne => exact hne
  | stray hc => exact Kind.ne_eof_of_closes hc
  | enclose ho => exact ne_of_apply_ne Kind.opens? (by rw [ho]; nofun)

/-- A brace in front is closed further on. -/
lemma exists_block {t : Token} {ts : List Token} (h : Leftover (t :: ts)) (hk : t.kind = .lcurly) :
    ∃ inner c us, ts = inner ++ c :: us ∧ Nested inner ∧ c.kind = .rcurly ∧ Leftover us := by
  cases h with
  | cons ho =>
    rw [hk] at ho
    cases ho
  | stray hc =>
    rw [hk] at hc
    cases hc
  | enclose ho hc hi h =>
    rw [hk] at ho
    cases ho
    exact ⟨_, _, _, rfl, hi, Kind.eq_rcurly hc, h⟩

/-- Recovery passes brackets with a nested list inside, unless they are the block that it is after. -/
lemma rest_enclose {boundary : Boundary} {o c : Token} {b : Bracket} {inner ts : List Token}
    (ho : o.kind.opens? = some b) (hc : c.kind.closes? = some b) (hi : Nested inner)
    (hb : boundary.verdict [b] c.kind = .skip) :
    boundary.rest (o :: (inner ++ c :: ts)) = boundary.rest ts := by
  rw [Boundary.rest_enclosed ho hi, Boundary.restWithin_of_skip (Kind.ne_eof_of_closes hc) hb,
    track_of_closes hc rfl]
  rfl

/-- A stray bracket that is skipped changes nothing of the search. -/
lemma rest_stray {boundary : Boundary} {t : Token} {b : Bracket} {ts : List Token}
    (hc : t.kind.closes? = some b) (hv : boundary.verdict [] t.kind = .skip) :
    boundary.rest (t :: ts) = boundary.rest ts := by
  rw [Boundary.rest, Boundary.restWithin_of_skip (Kind.ne_eof_of_closes hc) hv,
    track_nil_of_closes hc]
  rfl

/-- A token that is no bracket and is skipped changes nothing of the search. -/
lemma rest_cons {boundary : Boundary} {t : Token} {ts : List Token} (ho : t.kind.opens? = none)
    (hc : t.kind.closes? = none) (hne : t.kind ≠ .eof)
    (hv : boundary.verdict [] t.kind = .skip) : boundary.rest (t :: ts) = boundary.rest ts := by
  rw [Boundary.rest, Boundary.restWithin_of_skip hne hv, track_of_neither ho hc]
  rfl

/-- Recovery from a broken declaration ends in what is left, with something left again, or goes on
behind it as if it started there. -/
lemma rest_declaration {us : List Token} (h : Leftover us) :
    (∃ us', Leftover us' ∧ ∀ vs, Boundary.declaration.rest (us ++ vs) = us' ++ vs) ∨
      ∀ vs, Boundary.declaration.rest (us ++ vs) = Boundary.declaration.rest vs := by
  induction h with
  | nil => exact .inr fun vs => rfl
  | @cons t ts ho hc hne h ih =>
    -- outside of all brackets, recovery ends behind the first semicolon
    by_cases hs : t.kind = .semicolon
    · refine .inl ⟨ts, h, fun vs => Boundary.restWithin_of_stopBehind hne ?_⟩
      rw [hs]
      rfl
    · have hr : t.kind ≠ .rcurly := ne_of_apply_ne Kind.closes? (by rw [hc]; nofun)
      have hskip : ∀ vs, Boundary.declaration.rest (t :: ts ++ vs) =
          Boundary.declaration.rest (ts ++ vs) :=
        fun vs => rest_cons ho hc hne (verdict_declaration_skip.mpr fun _ => ⟨hs, hr⟩)
      simp only [hskip]
      exact ih
  | @stray t b ts hc hb h ih =>
    have hskip : ∀ vs, Boundary.declaration.rest (t :: ts ++ vs) =
        Boundary.declaration.rest (ts ++ vs) := by
      intro vs
      have hs : t.kind ≠ .semicolon := ne_of_apply_ne Kind.closes? (by rw [hc]; nofun)
      have hr : t.kind ≠ .rcurly := Kind.ne_rcurly_of_closes hc hb
      exact rest_stray hc (verdict_declaration_skip.mpr fun _ => ⟨hs, hr⟩)
    simp only [hskip]
    exact ih
  | @enclose o c b inner ts ho hc hi h ih =>
    -- a semicolon inside of brackets does not count
    have hskip : ∀ vs, Boundary.declaration.rest (o :: (inner ++ c :: ts) ++ vs) =
        Boundary.declaration.rest (ts ++ vs) := by
      intro vs
      rw [List.cons_append, List.append_assoc]
      exact rest_enclose ho hc hi (verdict_declaration_skip.mpr nofun)
    simp only [hskip]
    exact ih

end Leftover

/-- Lists that are empty or end with a brace that closes a block. -/
def EndsInBlock (ts : List Token) : Prop :=
  ∀ t ∈ ts.getLast?, t.kind = .rcurly

namespace EndsInBlock

/-- What ends with a block does so from any token on. -/
lemma suffix {ts us : List Token} (h : EndsInBlock ts) (hs : us <:+ ts) : EndsInBlock us := by
  obtain ⟨xs, rfl⟩ := hs
  intro t ht
  refine h t ?_
  rw [List.getLast?_append, ht]
  rfl

/-- A list that ends in a block does not end with another token. -/
lemma ne_nil {t : Token} {ts : List Token} (h : EndsInBlock (t :: ts)) (hk : t.kind ≠ .rcurly) :
    ts ≠ [] := by
  rintro rfl
  exact hk (h t rfl)

end EndsInBlock

/-- Recovery from a broken ruleset ends in what is left of a list that ends in a block. -/
lemma Leftover.rest_block {us : List Token} (h : Leftover us) (hb : EndsInBlock us)
    (hne : us ≠ []) :
    ∃ us', Leftover us' ∧ us' <:+ us ∧ ∀ vs, Boundary.block.rest (us ++ vs) = us' ++ vs := by
  induction h with
  | nil => exact absurd rfl hne
  | @cons t ts ho hc hne' h ih =>
    have hr : t.kind ≠ .rcurly := ne_of_apply_ne Kind.closes? (by rw [hc]; nofun)
    obtain ⟨us', hl, hs, hrest⟩ := ih (hb.suffix (List.suffix_cons t ts)) (hb.ne_nil hr)
    refine ⟨us', hl, hs.trans (List.suffix_cons t ts), fun vs => ?_⟩
    exact (rest_cons ho hc hne' (verdict_block_outside t.kind)).trans (hrest vs)
  | @stray t b ts hc hb' h ih =>
    have hr : t.kind ≠ .rcurly := Kind.ne_rcurly_of_closes hc hb'
    obtain ⟨us', hl, hs, hrest⟩ := ih (hb.suffix (List.suffix_cons t ts)) (hb.ne_nil hr)
    refine ⟨us', hl, hs.trans (List.suffix_cons t ts), fun vs => ?_⟩
    exact (rest_stray hc (verdict_block_outside t.kind)).trans (hrest vs)
  | @enclose o c b inner ts ho hc hi h ih =>
    have hsuffix : ts <:+ o :: (inner ++ c :: ts) :=
      ((List.suffix_cons c ts).trans (List.suffix_append inner _)).trans (List.suffix_cons o _)
    have happend : ∀ vs, o :: (inner ++ c :: ts) ++ vs = o :: (inner ++ c :: (ts ++ vs)) := by
      intro vs
      rw [List.cons_append, List.append_assoc, List.cons_append]
    by_cases hcurly : b = .curly
    · -- this is the block that recovery ends behind
      subst hcurly
      refine ⟨ts, h, hsuffix, fun vs => ?_⟩
      rw [happend, Boundary.rest_enclosed ho hi]
      refine Boundary.restWithin_of_stopBehind (Kind.ne_eof_of_closes hc) ?_
      rw [Kind.eq_rcurly hc]
      rfl
    · -- other brackets are skipped as a whole, and the block is further on
      have hr : c.kind ≠ .rcurly := Kind.ne_rcurly_of_closes hc hcurly
      have hbc : EndsInBlock (c :: ts) :=
        hb.suffix ((List.suffix_append inner _).trans (List.suffix_cons o _))
      obtain ⟨us', hl, hs, hrest⟩ := ih (hb.suffix hsuffix) (hbc.ne_nil hr)
      refine ⟨us', hl, hs.trans hsuffix, fun vs => ?_⟩
      rw [happend]
      refine (rest_enclose ho hc hi (verdict_block_skip.mpr ?_)).trans (hrest vs)
      exact fun hn => hcurly (List.cons.inj hn.1).1

/-! ### Lists that share what is left -/

/-- Lists that share what is left of a nested one, in front of tokens of their own. -/
def Shared (vs ws xs ys : List Token) : Prop :=
  ∃ us, Leftover us ∧ xs = us ++ vs ∧ ys = us ++ ws

/-- Lists that share what is left over in front of a token that ends constructs are in lockstep. -/
lemma Lockstep.shared {v w : Token} {vs ws : List Token} (hv : v.kind.isInner = false)
    (hw : w.kind.isInner = false) : Lockstep Kind.Alike (Shared (v :: vs) (w :: ws)) where
  alike := by
    rintro t u ts us ⟨xs, hx, ht, hu⟩
    cases xs with
    | nil =>
      cases ht
      cases hu
      exact .ends hv hw
    | cons x xs =>
      cases ht
      cases hu
      exact .refl _
  behind := by
    rintro t u ts us ⟨xs, hx, ht, hu⟩ hne
    cases xs with
    | nil =>
      cases ht
      exact absurd (.ends hv rfl) hne
    | cons x xs =>
      cases ht
      cases hu
      refine ⟨xs, hx.tail ?_, rfl, rfl⟩
      intro hk
      exact hne (hk ▸ .ends rfl rfl)
  eof := .refl _

/-- Parsers that share what is left are done with it, or see the same token and share what is left
behind it unless a block starts there. -/
lemma Parser.Facing.of_shared {vs ws : List Token} {p q : Parser} (h : p.Facing (Shared vs ws) q) :
    (p.unread = vs ∧ q.unread = ws) ∨
      (q.kind = p.kind ∧ p.kind ≠ .eof ∧ p.kind ≠ .rcurly ∧
        (p.kind ≠ .lcurly → p.advance.Facing (Shared vs ws) q.advance)) := by
  obtain ⟨us, hus, hp, hq⟩ := h.unread
  cases us with
  | nil => exact .inl ⟨hp, hq⟩
  | cons t us =>
    have hpc : p.current = t := current_of_unread hp
    have hqc : q.current = t := current_of_unread hq
    have hk : q.kind = p.kind := congrArg Token.kind (hqc.trans hpc.symm)
    subst hpc
    refine .inr ⟨hk, hus.ne_eof, hus.ne_rcurly, fun hl => ?_⟩
    exact h.advance_of hp hq hus.ne_eof hus.ne_eof ⟨us, hus.tail hl, rfl, rfl⟩

end CssSyntax
