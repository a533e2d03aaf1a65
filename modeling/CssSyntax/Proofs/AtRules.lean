import Mathlib.Data.List.DropRight
import CssSyntax.Proofs.Isolation

/-!
# At-rules that are not known

An at-rule that is not known ends behind its `;`, or behind the `]` of the block that its first `[`
opens, and this is where skipping it ends (`AtRule.skip`). Brackets other than these do not count, and
neither does a `]` in front of the block.

Three loops may meet such a rule: the one in front of a stylesheet, that of the imports and that of the
rulesets. The loop that does so depends on what stands in front of the rule. `UpToAtRule` relates the
tokens in front of a parser that meets it to those in front of one that does not; once it is skipped,
both read on alike (`unknown_atRule_transparent`).
-/

namespace CssSyntax

open ParseM

/-! ### Complete at-rules -/

/-- Lists of tokens in which every `[` is closed; other brackets do not matter, and the end of the
input stands in none of them. -/
inductive SquareNested : List Token → Prop where
  | nil : SquareNested []
  | cons {t : Token} {ts : List Token} :
    t.kind ≠ .lbracket → t.kind ≠ .rbracket → t.kind ≠ .eof → SquareNested ts →
      SquareNested (t :: ts)
  | enclose {l r : Token} {inner ts : List Token} :
    l.kind = .lbracket → r.kind = .rbracket → SquareNested inner → SquareNested ts →
      SquareNested (l :: (inner ++ r :: ts))

/-- Tokens that may stand between the keyword of an at-rule and its `;` or its block. -/
def AtPrelude (ts : List Token) : Prop :=
  ∀ t ∈ ts, t.kind ≠ .semicolon ∧ t.kind ≠ .lbracket ∧ t.kind ≠ .eof

instance (ts : List Token) : Decidable (AtPrelude ts) :=
  inferInstanceAs (Decidable (∀ t ∈ ts, t.kind ≠ .semicolon ∧ t.kind ≠ .lbracket ∧ t.kind ≠ .eof))

/-- At-rules that are not known, up to the `;` or the block that ends them. -/
inductive AtRule : List Token → Prop where
  | semicolon {u s : Token} {as : List Token} :
    u.kind = .atUnknown → AtPrelude as → s.kind = .semicolon → AtRule (u :: (as ++ [s]))
  | block {u l r : Token} {as bs : List Token} :
    u.kind = .atUnknown → AtPrelude as → l.kind = .lbracket → SquareNested bs →
      r.kind = .rbracket → AtRule (u :: (as ++ l :: (bs ++ [r])))

/-- Square brackets that match hold no end of the input. -/
lemma SquareNested.noEof {ts : List Token} (h : SquareNested ts) : NoEof ts := by
  induction h with
  | nil => exact noEof_nil
  | cons _ _ hne _ ih => exact noEof_cons.mpr ⟨hne, ih⟩
  | enclose hl hr _ _ ihi ih => simp [hl, hr, ihi, ih]

/-- What stands in front of the block of an at-rule holds no end of the input. -/
lemma AtPrelude.noEof {ts : List Token} (h : AtPrelude ts) : NoEof ts :=
  fun t ht => (h t ht).2.2

/-- In front of its block an at-rule goes on, whatever closing brackets it holds. -/
lemma AtPrelude.atRuleRest {as ts : List Token} (h : AtPrelude as) :
    atRuleRest 0 (as ++ ts) = CssSyntax.atRuleRest 0 ts := by
  induction as with
  | nil => rfl
  | cons t as ih =>
    obtain ⟨⟨hs, hl, he⟩, has⟩ := List.forall_mem_cons.mp h
    rw [List.cons_append, CssSyntax.atRuleRest]
    split
    · next hk => exact absurd hk he
    · next hk => exact absurd hk hl
    · -- no bracket is open, and none is after one that closes nothing
      exact ih has
    · next hk => exact absurd hk hs
    · exact ih has

/-- Inside of the block of an at-rule a list that closes its own brackets is passed. -/
lemma SquareNested.atRuleRest {bs ts : List Token} (h : SquareNested bs) (depth : Nat) :
    atRuleRest (depth + 1) (bs ++ ts) = CssSyntax.atRuleRest (depth + 1) ts := by
  induction h generalizing depth ts with
  | nil => rfl
  | cons hl hr he _ ih =>
    rw [List.cons_append, CssSyntax.atRuleRest]
    split
    · next hk => exact absurd hk he
    · next hk => exact absurd hk hl
    · next hk => exact absurd hk hr
    · exact ih depth
    · exact ih depth
  | @enclose l r inner us hl hr _ _ ihi ih =>
    have hopen : CssSyntax.atRuleRest (depth + 1) (l :: (inner ++ r :: (us ++ ts))) =
        CssSyntax.atRuleRest (depth + 2) (inner ++ r :: (us ++ ts)) := by
      rw [CssSyntax.atRuleRest, hl]
    have hclose : CssSyntax.atRuleRest (depth + 2) (r :: (us ++ ts)) =
        CssSyntax.atRuleRest (depth + 1) (us ++ ts) := by
      rw [CssSyntax.atRuleRest, hr]
      rfl
    calc CssSyntax.atRuleRest (depth + 1) (l :: (inner ++ r :: us) ++ ts)
        = CssSyntax.atRuleRest (depth + 1) (l :: (inner ++ r :: (us ++ ts))) := by
          rw [List.cons_append, List.append_assoc, List.cons_append]
      _ = CssSyntax.atRuleRest (depth + 1) ts := by
          rw [hopen, ihi (depth + 1), hclose, ih depth]

namespace AtRule

variable {us vs : List Token}

/-- An at-rule holds no end of the input. -/
lemma noEof (h : AtRule us) : NoEof us := by
  cases h with
  | semicolon hu has hs => simp [hu, has.noEof, hs]
  | block hu has hl hbs hr => simp [hu, has.noEof, hl, hbs.noEof, hr]

/-- An at-rule is its keyword and what is skipped behind it. -/
lemma rest (h : AtRule us) (vs : List Token) :
    ∃ u ts, us ++ vs = u :: ts ∧ u.kind = .atUnknown ∧ atRuleRest 0 ts = vs := by
  cases h with
  | @semicolon u s as hu has hs =>
    refine ⟨u, as ++ s :: vs, by simp, hu, ?_⟩
    rw [has.atRuleRest, atRuleRest, hs]
    rfl
  | @block u l r as bs hu has hl hbs hr =>
    refine ⟨u, as ++ l :: (bs ++ r :: vs), by simp, hu, ?_⟩
    rw [has.atRuleRest, atRuleRest, hl]
    show atRuleRest 1 (bs ++ r :: vs) = vs
    rw [hbs.atRuleRest, atRuleRest, hr]
    rfl

/-- An at-rule does not stand between rules, so nothing of it is dropped. -/
lemma dropFillers_append (h : AtRule us) (vs : List Token) : dropFillers (us ++ vs) = us ++ vs := by
  obtain ⟨u, ts, hus, hu, -⟩ := h.rest vs
  rw [hus, dropFillers_cons (by rw [hu]; rfl)]

/-- An at-rule is skipped as a whole. -/
lemma skip {L M : List Token → List Token → Prop} {p q : Parser} (h : AtRule us)
    (hf : p.Facing L q) (hp : p.unread = us ++ vs) (hm : M vs q.unread) :
    p.kind = .atUnknown ∧ p.skipAtRule.Facing M q := by
  obtain ⟨u, ts, hus, hu, hrest⟩ := h.rest vs
  rw [hus] at hp
  have hk : p.kind = .atUnknown := Parser.kind_of_unread hp hu
  have hne : p.kind ≠ .eof := by
    rw [hk]
    nofun
  obtain ⟨_, hr, -⟩ := Parser.skipAtRule_reads hne
  obtain ⟨-, ha⟩ := Parser.unread_advance (p := p.note (.tried .unknownAtRule)) hp
    (by rw [hu]; nofun)
  refine ⟨hk, hf.of_reads hr (.refl q) ?_⟩
  rw [Parser.skipAtRule, Parser.skipAtRuleWithin_unread, ha, hrest]
  exact hm

end AtRule

/-- Lists of which the first has an at-rule in front of the tokens of the second, but for what may
stand between two rules. -/
def UpToAtRule (xs ys : List Token) : Prop :=
  ∃ us vs, AtRule us ∧ UpToBrace vs vs ∧ dropFillers xs = us ++ vs ∧
    dropFillers ys = dropFillers vs

/-- What stands between rules in front of either list does not matter. -/
lemma UpToAtRule.congr {xs ys xs' ys' : List Token} (h : UpToAtRule xs ys)
    (hx : dropFillers xs' = dropFillers xs) (hy : dropFillers ys' = dropFillers ys) :
    UpToAtRule xs' ys' := by
  obtain ⟨us, vs, hu, hvs, hxs, hys⟩ := h
  exact ⟨us, vs, hu, hvs, hx.trans hxs, hy.trans hys⟩

namespace Parser

variable {p q : Parser}

/-- Where there is nothing to skip in front of a rule, nothing is skipped. -/
lemma skipFiller_of_unread {xs : List Token} (h : p.unread = dropFillers xs) :
    p.skipFiller = p := by
  obtain ⟨ts, hp⟩ := p.unread_eq_cons
  have hself : dropFillers (p.current :: ts) = p.current :: ts := by
    rw [← hp, h]
    exact List.dropWhile_idempotent _ _
  exact Parser.skipWhile_of_stop
    (Bool.eq_false_iff.mpr (List.dropWhile_eq_self_iff.mp hself (Nat.succ_pos _)))

/-- Behind the at-rule that one of the parsers skips, both go on alike. -/
lemma Facing.skip_atRule (h : p.Facing UpToAtRule q) :
    p.skipFiller.kind = .atUnknown ∧
      p.skipFiller.skipAtRule.skipFiller.Facing UpToBrace q.skipFiller := by
  obtain ⟨us, vs, hu, hvs, hxs, hys⟩ := h.unread
  obtain ⟨_, hr⟩ := p.skipFiller_reads
  obtain ⟨hk, h₁⟩ := hu.skip (h.of_reads hr (.refl q) ⟨rfl, rfl⟩) (p.skipFiller_unread.trans hxs)
    (L := fun xs ys => xs = p.skipFiller.unread ∧ ys = q.unread)
    (M := fun xs ys => xs = vs ∧ ys = q.unread) ⟨rfl, rfl⟩
  refine ⟨hk, h₁.skipWhile_of ?_⟩
  show UpToBrace (dropFillers _) (dropFillers _)
  rw [h₁.unread.1, hys]
  exact hvs.dropFillers

end Parser

/-! ### What is spelled in front of an at-rule -/

/-- What may stand between two rules may stand in front of what is left. -/
lemma RulesLeft.fillers {fs us : List Token} (h : RulesLeft us) (hf : Fillers fs) (hne : us ≠ []) :
    RulesLeft (fs ++ us) where
  leftover := hf.tidy.nested.leftover_append h.leftover
  ends := by
    intro t ht
    have hlast := List.getLast?_eq_some_getLast hne
    rw [List.getLast?_append, hlast] at ht
    exact h.ends t (hlast ▸ ht)
  known := by
    refine List.forall_mem_append.mpr ⟨fun t ht hk => ?_, h.known⟩
    exact hf.tidy.not_mem t ht (hk ▸ by simp)

/-- Rules are left if a ruleset stands in front of what is left. -/
lemma RulesLeft.ruleset {l r : Token} {prelude body us : List Token} (h : RulesLeft us)
    (hp : Tidy prelude) (hl : l.kind = .lcurly) (hb : Tidy body) (hr : r.kind = .rcurly) :
    RulesLeft (prelude ++ l :: (body ++ r :: us)) := by
  obtain ⟨hleft, hends⟩ := h.leftover.ruleset h.ends hp.nested hl hb.nested hr
  have hknown : ∀ {ts}, Tidy ts → ∀ t ∈ ts, t.kind ≠ .atUnknown :=
    fun hts t ht hk => hts.not_mem t ht (hk ▸ by simp)
  refine ⟨hleft, hends, ?_⟩
  simp only [List.forall_mem_append, List.forall_mem_cons]
  exact ⟨hknown hp, by rw [hl]; nofun, hknown hb, by rw [hr]; nofun, h.known⟩

/-- Rulesets that are spelled are what is left of rulesets, but for what stands behind the last one. -/
lemma rulesets_left_of_spelled {rs : List Ruleset} {ts : List Token}
    (h : Each (BeforeFillers Ruleset.Spelled) rs ts) :
    ∃ us fs, ts = us ++ fs ∧ RulesLeft us ∧ Fillers fs := by
  induction h with
  | nil => exact ⟨[], [], rfl, ⟨.nil, nofun, nofun⟩, fillers_nil⟩
  | cons hr _ ih =>
    obtain ⟨us, fs, rfl, hus, hfs⟩ := ih
    cases hr with
    | @intro _ gs hr hg =>
      obtain ⟨prelude, l, body, c, bs, rfl, hp, hl, hb, hc, hbs⟩ := hr.shape
      have hgap : Fillers (bs ++ gs) := List.forall_mem_append.mpr ⟨hbs.fillers, hg⟩
      by_cases hne : us = []
      · subst hne
        refine ⟨prelude ++ l :: (body ++ [c]), bs ++ gs ++ fs, by simp, hus.ruleset hp hl hb hc, ?_⟩
        exact List.forall_mem_append.mpr ⟨hgap, hfs⟩
      · exact ⟨prelude ++ l :: (body ++ c :: (bs ++ gs ++ us)), fs, by simp,
          (hus.fillers hgap hne).ruleset hp hl hb hc, hfs⟩

/-- Actions that give the same result on both parsers leave them in front of what is left. -/
lemma ParseM.Agrees.of_yields {α : Type} {m : ParseM α} {a : α} {p q : Parser}
    {L : List Token → List Token → Prop} {E : Parser → Parser → Prop} {us vs : List Token}
    (h : p.Facing L q) (hp : m.Yields p a us) (hq : m.Yields q a vs) :
    m.Agrees E p q (Parser.Facing fun xs ys => xs = us ∧ ys = vs) := by
  obtain ⟨_, _, hp, rp, hpu⟩ := hp
  obtain ⟨_, _, hq, rq, hqu⟩ := hq
  exact .ok hp hq (h.of_reads rp rq ⟨hpu, hqu⟩)

namespace Grammar

section Around

variable {xs ys : List Token} {p q : Parser} {E : Parser → Parser → Prop}

/-! ### The three loops -/

/-- An at-rule between two rulesets, or behind them. -/
lemma rulesets_agree_around (hxy : UpToAtRule xs ys) (h : p.Facing (BetweenRules xs ys) q) :
    (manySome rulesetItem?).Agrees E p q fun _ _ => True := by
  obtain ⟨rs, p₁, q₁, hp, hq, h₁⟩ := rulesets_shared h
  have h₂ : p₁.Facing UpToAtRule q₁ := by
    refine ⟨?_, h₁.depth, h₁.limit⟩
    rw [h₁.unread.1, h₁.unread.2]
    exact hxy.congr (List.dropWhile_idempotent _ _) (List.dropWhile_idempotent _ _)
  obtain ⟨hk, h₃⟩ := h₂.skip_atRule
  rw [Parser.skipFiller_of_unread h₁.unread.1] at hk h₃
  rw [Parser.skipFiller_of_unread h₁.unread.2] at h₃
  have hskip : Collects rulesetItem? p₁ [] p₁.skipAtRule.skipFiller :=
    .next (nextRuleset_of_atUnknown hk) (.refl _)
  exact .behind nextRuleset_advances nextRuleset_total (hp.trans hskip) (hq.trans (.refl q₁))
    (rulesets_agree h₃)

/-- Imports are the same behind what stands between rules. -/
lemma imports_skipFiller (p : Parser) :
    manySome importItem? p.skipFiller = manySome importItem? p := by
  apply manySome_eq_of_step importItem_advances
  rw [importItem?, change_bind_apply, change_bind_apply,
    Parser.skipFiller_of_unread p.skipFiller_unread]

/-- An at-rule in the place of an import. -/
lemma imports_agree_around (h : p.Facing UpToAtRule q) :
    (manySome importItem?).Agrees E p q (Parser.Facing UpToBrace) := by
  obtain ⟨hk, h₁⟩ := h.skip_atRule
  obtain ⟨is, p₂, q₂, hp, hq, h₂⟩ :=
    (Respects.manySome importItem_advances (importItem_respects UpToBrace.steady) _ _ h₁).of_total
      importItem_total.manySome
  rw [imports_skipFiller] at hp hq
  exact .ok (manySome_of_some importItem_advances (importItem_of_atUnknown hk) hp) hq h₂

/-- An at-rule behind rulesets. -/
lemma rulesets_agree_behind {rulesets : List Ruleset} {rs : List Token} (hxy : UpToAtRule xs ys)
    (hr : Each (BeforeFillers Ruleset.Spelled) rulesets rs)
    (h : p.Facing (fun vs ws => dropFillers vs = dropFillers (rs ++ xs) ∧
      dropFillers ws = dropFillers (rs ++ ys)) q) :
    (manySome rulesetItem?).Agrees E p.skipFiller q.skipFiller fun _ _ => True := by
  obtain ⟨us, fs, rfl, hleft, hf⟩ := rulesets_left_of_spelled hr
  have hfxy : UpToAtRule (fs ++ xs) (fs ++ ys) :=
    hxy.congr (dropFillers_append hf) (dropFillers_append hf)
  apply rulesets_agree_around hfxy
  apply h.skipWhile_of
  show BetweenRules _ _ (dropFillers _) (dropFillers _)
  rw [h.unread.1, h.unread.2, List.append_assoc, List.append_assoc]
  exact hleft.behindRule

/-- An at-rule behind imports, with rulesets in front of it or without. -/
lemma imports_rulesets_agree {imports : List Import} {rulesets : List Ruleset}
    {is rs : List Token} (hxy : UpToAtRule xs ys)
    (hi : Each (BeforeFillers Import.Spelled) imports is)
    (hr : Each (BeforeFillers Ruleset.Spelled) rulesets rs)
    (h : p.Facing (fun vs ws => dropFillers vs = dropFillers (is ++ (rs ++ xs)) ∧
      dropFillers ws = dropFillers (is ++ (rs ++ ys))) q) :
    (manySome importItem?).Agrees E p q fun p' q' =>
      (manySome rulesetItem?).Agrees E p' q' fun _ _ => True := by
  obtain ⟨p₁, hp, hpu⟩ := imports_collected hi h.unread.1
  obtain ⟨q₁, hq, hqu⟩ := imports_collected hi h.unread.2
  obtain ⟨_, hpr⟩ := hp.reads importItem_run
  obtain ⟨_, hqr⟩ := hq.reads importItem_run
  have h₁ : p₁.Facing (fun vs ws => dropFillers vs = dropFillers (rs ++ xs) ∧
      dropFillers ws = dropFillers (rs ++ ys)) q₁ := h.of_reads hpr hqr ⟨hpu, hqu⟩
  apply Agrees.behind importItem_advances importItem_total hp hq
  by_cases hne : rs = []
  · -- the at-rule is an item of the imports, and there may be more of them behind it
    subst hne
    have hf : p₁.Facing UpToAtRule q₁ := ⟨hxy.congr hpu hqu, h₁.depth, h₁.limit⟩
    obtain ⟨as, p₂, q₂, hp₂, hq₂, h₂⟩ :=
      (imports_agree_around (E := fun _ _ => False) hf).of_total importItem_total.manySome
    exact .ok hp₂ hq₂ (rulesets_agree h₂)
  · -- a ruleset is in front of both parsers, which ends the imports
    have hstart := (rulesets_start hr (e := ⟨.eof, .origin⟩) rfl []).of_append hne
    obtain ⟨hp₂, -⟩ := importItem_of_end (hstart.append xs) hpu
    obtain ⟨hq₂, -⟩ := importItem_of_end (hstart.append ys) hqu
    exact .ok (manySome_of_none hp₂) (manySome_of_none hq₂) (rulesets_agree_behind hxy hr h₁)

/-! ### Stylesheets -/

/-- What stands behind the charset rule of a spelling. -/
lemma spelled_behind_charset {imports : List Import} {rulesets : List Ruleset}
    {fs is rs : List Token} (hf : Fillers fs) (hi : Each (BeforeFillers Import.Spelled) imports is)
    (hr : Each (BeforeFillers Ruleset.Spelled) rulesets rs) (hne : fs ++ (is ++ rs) ≠ []) :
    StartsWith StartsRules (fs ++ (is ++ rs)) := by
  have hrules := rules_start hi hf (rulesets_start hr (e := ⟨.eof, .origin⟩) rfl [])
  rw [← List.append_assoc is, ← List.append_assoc fs] at hrules
  exact hrules.of_append hne

/-- A spelling does not start with an at-rule that is not known. -/
lemma spelled_starts {x : Stylesheet} {zs : List Token} (hx : x.Spelled zs) (hne : zs ≠ []) :
    StartsWith (· ≠ .atUnknown) zs := by
  cases hx with
  | intro hc hf hi hr =>
    cases hc with
    | absent =>
      obtain ⟨t, ts, hts, ht⟩ := spelled_behind_charset hf hi hr hne
      exact ⟨t, ts, hts, ht.ne.1⟩
    | named hc => exact ⟨_, _, rfl, by rw [hc]; nofun⟩

/-- An at-rule behind a charset rule, imports and rulesets. -/
lemma rules_agree_behind {x : Stylesheet} {zs : List Token} (hx : x.Spelled zs) (hne : zs ≠ [])
    (hxy : UpToAtRule xs ys) (h : p.Facing (fun vs ws => vs = zs ++ xs ∧ ws = zs ++ ys) q) :
    rules.Agrees E p q fun _ _ => True := by
  cases hx with
  | @intro charset imports rulesets cs fs is rs hc hf hi hr =>
    have hassoc : ∀ us, cs ++ (fs ++ (is ++ rs)) ++ us = cs ++ (fs ++ (is ++ (rs ++ us))) := by
      simp only [List.append_assoc, implies_true]
    have hstart : ∀ us, charset = none →
        StartsWith (· ≠ .atCharset) (fs ++ (is ++ (rs ++ us))) := by
      rintro us rfl
      cases hc
      obtain ⟨t, ts, hts, ht⟩ := (spelled_behind_charset hf hi hr hne).append us
      exact ⟨t, ts, (hassoc us).symm.trans hts, ht.ne.2⟩
    have hp := charset_yields hc (hstart xs) (h.unread.1.trans (hassoc xs))
    have hq := charset_yields hc (hstart ys) (h.unread.2.trans (hassoc ys))
    apply (Agrees.of_yields h hp hq).bind
    intro _ p₁ q₁ h₁
    have h₂ : p₁.Facing (fun vs ws => dropFillers vs = dropFillers (is ++ (rs ++ xs)) ∧
        dropFillers ws = dropFillers (is ++ (rs ++ ys))) q₁ := by
      refine ⟨?_, h₁.depth, h₁.limit⟩
      rw [h₁.unread.1, h₁.unread.2]
      exact ⟨dropFillers_append hf, dropFillers_append hf⟩
    apply (imports_rulesets_agree hxy hi hr h₂).bind
    intro _ p₃ q₃ h₃
    exact h₃.bind fun _ _ _ _ => .pure trivial

/-- An at-rule anywhere between the rules of a stylesheet, in front of them or behind them. -/
lemma stylesheet_agrees_around {x : Stylesheet} {zs us vs : List Token} (hx : x.Spelled zs)
    (hu : AtRule us) (hvs : UpToBrace vs vs)
    (h : p.Facing (fun xs ys => xs = zs ++ (us ++ vs) ∧ ys = zs ++ vs) q) :
    stylesheet.Agrees (Parser.Facing UpToBrace) p q fun _ _ => True := by
  have hn := h.note (.tried .stylesheet) (.tried .stylesheet)
  by_cases hne : zs = []
  · -- the loop in front of the charset rule meets the at-rule, which only adds to its results
    subst hne
    obtain ⟨hk, h₁⟩ := hu.skip (M := UpToBrace) hn hn.unread.1 (hn.unread.2 ▸ hvs)
    obtain ⟨as, p₂, q₂, hp, hq, h₂⟩ :=
      (Respects.many leadingItem_advances (leadingItem_respects UpToBrace.steady) _ _ h₁).of_total
        leadingItem_total.many
    have hstep := leadingItem_of_atUnknown hk
    have hmany := many_of_some hstep (leadingItem_advances _ _ _ hstep)
    rw [hp] at hmany
    exact stylesheet_agrees_behind hmany hq
      (rules_agree_of UpToBrace.steady charsetRule_upToBrace (fun _ _ => rulesets_agree) h₂)
  · obtain ⟨t, ts, rfl, ht⟩ := spelled_starts hx hne
    have hpk := Parser.kind_of_unread hn.unread.1 rfl
    have hqk := Parser.kind_of_unread hn.unread.2 rfl
    have hxy : UpToAtRule (us ++ vs) vs := ⟨us, vs, hu, hvs, hu.dropFillers_append vs, rfl⟩
    exact stylesheet_agrees_behind (many_of_none (leadingItem_of_other (hpk ▸ ht)))
      (many_of_none (leadingItem_of_other (hqk ▸ ht))) (rules_agree_behind hx hne hxy hn)

end Around

end Grammar

/-- An at-rule that is not known and that is complete changes nothing, wherever it stands: in front of
a stylesheet, between its rules, or behind them, whatever follows. The empty list spells the empty
stylesheet. -/
theorem unknown_atRule_transparent (config : Config) (x : Stylesheet) (xs us ts : List Token)
    (hx : x.Spelled xs) (hu : AtRule us) (ht : NoEof ts) :
    ∃ s, (parseSource (.tokens (xs ++ (us ++ ts))) config).result = .ok s ∧
      (parseSource (.tokens (xs ++ ts)) config).result = .ok s := by
  have hwith := noEof_append.mpr ⟨hx.noEof, noEof_append.mpr ⟨hu.noEof, ht⟩⟩
  have hwithout := noEof_append.mpr ⟨hx.noEof, ht⟩
  have hlists : (Parser.ofSource (.tokens (xs ++ (us ++ ts))) config).Facing
      (fun as bs => as = xs ++ (us ++ (ts ++ [⟨.eof, .origin⟩])) ∧
        bs = xs ++ (ts ++ [⟨.eof, .origin⟩]))
      (Parser.ofSource (.tokens (xs ++ ts)) config) := by
    refine ⟨⟨?_, ?_⟩, rfl, rfl⟩
    · rw [Parser.unread_of_noEof hwith, List.append_assoc, List.append_assoc]
    · rw [Parser.unread_of_noEof hwithout, List.append_assoc]
  have hagrees := Grammar.stylesheet_agrees_around hx hu (.append ht (.eof rfl rfl))
    (hlists.note (.reading config.source) (.reading config.source))
  exact (Grammar.document_agrees hagrees).reports Grammar.document_total

/-- The tokens of `@x]{[;{([]}]`, with a bracket that closes nothing in front of the block and a `;`
and other brackets that are open inside of it. -/
def blockAtRule : List Token :=
  [.atUnknown, .rbracket, .lcurly, .lbracket, .semicolon, .lcurly, .lparen, .lbracket, .rbracket,
    .rcurly, .rbracket].map Kind.token

/-- The tokens of the sample are an at-rule with a block. -/
lemma atRule_blockAtRule : AtRule blockAtRule := by
  have hinner : SquareNested ([.semicolon, .lcurly, .lparen, .lbracket, .rbracket, .rcurly].map
      Kind.token) := by
    refine .cons nofun nofun nofun (.cons nofun nofun nofun (.cons nofun nofun nofun ?_))
    exact @SquareNested.enclose Kind.lbracket.token Kind.rbracket.token [] [Kind.rcurly.token]
      rfl rfl .nil (.cons nofun nofun nofun .nil)
  exact @AtRule.block Kind.atUnknown.token Kind.lbracket.token Kind.rbracket.token
    [Kind.rbracket.token, Kind.lcurly.token] _ rfl (by decide) rfl hinner rfl

/-- An at-rule behind the ruleset of a stylesheet does no harm to the one behind it, and one in front of
a charset rule does not hide it. -/
theorem unknown_atRule_transparent_sample :
    (∃ s, (parseSource (.tokens (sampleTokens ++ (blockAtRule ++ followingRuleset))) {}).result =
        .ok s ∧ (parseSource (.tokens (sampleTokens ++ followingRuleset)) {}).result = .ok s ∧
        s.rulesets.length = 2) ∧
    ∃ s, (parseSource (.tokens ([] ++ (blockAtRule ++ sampleTokens))) {}).result = .ok s ∧
      (parseSource (.tokens ([] ++ sampleTokens)) {}).result = .ok s ∧ s.charset = some "c" := by
  constructor
  · obtain ⟨s, hwith, hwithout⟩ := unknown_atRule_transparent {} sampleSheet sampleTokens blockAtRule
      followingRuleset sampleSheet_spelled atRule_blockAtRule (by decide)
    exact ⟨s, hwith, hwithout,
      eq_of_toOption_map (·.rulesets.length) 2 hwithout (by decide +kernel)⟩
  · have hempty : Stylesheet.Spelled ⟨none, [], []⟩ [] := .intro .absent fillers_nil .nil .nil
    obtain ⟨s, hwith, hwithout⟩ := unknown_atRule_transparent {} _ [] blockAtRule sampleTokens hempty
      atRule_blockAtRule sampleSheet_spelled.noEof
    exact ⟨s, hwith, hwithout,
      eq_of_toOption_map (·.charset) (some "c") hwithout (by decide +kernel)⟩

end CssSyntax
