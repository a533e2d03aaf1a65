import CssSyntax.Proofs.DeclarationLists

/-!
# Broken rulesets

A ruleset that is broken does no harm to what follows it, as long as its brackets match. It may fail
on any token, inside of brackets that its selectors have opened already, and be resumed in the middle
of what is left; its block may hold broken declarations with a recovery of their own. All these ways
end in front of the same token, behind the brace that closes its block.

`RulesLeft` says what can be left of rulesets on the way. Two parsers that share it, with different
tokens behind, read the same rulesets up to its end (`Grammar.rulesets_shared`).
-/

namespace CssSyntax

open ParseM

/-- Lists of items that look like rulesets: a list with matching brackets that has no block outside of
them, and a block with matching brackets in it. -/
inductive RuleShaped : List Token → Prop where
  | nil : RuleShaped []
  | cons {l r : Token} {prelude body ts : List Token} :
    Nested prelude → (∀ t ∈ outside prelude, t.kind ≠ .lcurly) → l.kind = .lcurly → Nested body →
      r.kind = .rcurly → RuleShaped ts → RuleShaped (prelude ++ l :: (body ++ r :: ts))

/-- What can be left of rulesets. -/
structure RulesLeft (us : List Token) : Prop where
  leftover : Leftover us
  ends : EndsInBlock us
  known : ∀ t ∈ us, t.kind ≠ .atUnknown

/-- A list that ends with a block does so with a brace and any tokens in front of it. -/
lemma EndsInBlock.append {r : Token} {ts : List Token} (h : EndsInBlock ts) (hr : r.kind = .rcurly)
    (us : List Token) : EndsInBlock (us ++ r :: ts) := by
  intro t ht
  rw [List.getLast?_append, List.getLast?_cons] at ht
  cases ht
  cases hlast : ts.getLast? with
  | none => exact hr
  | some u => exact h u hlast

/-- Something that looks like a ruleset in front of what is left. -/
lemma Leftover.ruleset {l r : Token} {prelude body ts : List Token} (h : Leftover ts)
    (he : EndsInBlock ts) (hp : Nested prelude) (hl : l.kind = .lcurly) (hb : Nested body)
    (hr : r.kind = .rcurly) :
    Leftover (prelude ++ l :: (body ++ r :: ts)) ∧
      EndsInBlock (prelude ++ l :: (body ++ r :: ts)) := by
  constructor
  · exact hp.leftover_append
      (.enclose (b := .curly) (congrArg Kind.opens? hl) (congrArg Kind.closes? hr) hb h)
  · have hends := he.append hr (prelude ++ l :: body)
    rwa [List.append_assoc] at hends

/-- Tokens that are shaped like rules can be left over, and end with a block. -/
lemma RuleShaped.leftover {ts : List Token} (h : RuleShaped ts) :
    Leftover ts ∧ EndsInBlock ts := by
  induction h with
  | nil => exact ⟨.nil, nofun⟩
  | cons hp _ hl hb hr _ ih => exact ih.1.ruleset ih.2 hp hl hb hr

/-- The end of the input is not left over. -/
lemma Leftover.noEof {ts : List Token} (h : Leftover ts) : NoEof ts := by
  induction h with
  | nil => exact noEof_nil
  | cons _ _ hne _ ih => exact noEof_cons.mpr ⟨hne, ih⟩
  | stray hc _ _ ih => exact noEof_cons.mpr ⟨Kind.ne_eof_of_closes hc, ih⟩
  | enclose ho hc hi _ ih =>
    refine noEof_cons.mpr ⟨?_, noEof_append.mpr ⟨hi.ne_eof, noEof_cons.mpr ⟨?_, ih⟩⟩⟩
    · exact ne_of_apply_ne Kind.opens? (by rw [ho]; nofun)
    · exact Kind.ne_eof_of_closes hc

/-- What is left of rules is so behind any of their tokens. -/
lemma RulesLeft.suffix {us vs : List Token} (h : RulesLeft us) (hv : Leftover vs)
    (hs : vs <:+ us) : RulesLeft vs :=
  ⟨hv, h.ends.suffix hs, fun t ht => h.known t (hs.subset ht)⟩

/-- Lists that share something that is left of rulesets, in front of tokens of their own. -/
def InRules (vs ws xs ys : List Token) : Prop :=
  ∃ us, RulesLeft us ∧ us ≠ [] ∧ xs = us ++ vs ∧ ys = us ++ ws

/-- Lists that share what is left of rulesets, if anything is, without what may stand between two
rules. -/
def BetweenRules (vs ws xs ys : List Token) : Prop :=
  InRules vs ws xs ys ∨ (xs = dropFillers vs ∧ ys = dropFillers ws)

/-- Lists that do so when what may stand between two rules is skipped. -/
def BehindRule (vs ws xs ys : List Token) : Prop :=
  BetweenRules vs ws (dropFillers xs) (dropFillers ys)

/-- Parsers in the middle of rulesets that they share stand on the same token. -/
lemma Parser.Facing.of_inRules {vs ws : List Token} {p q : Parser}
    (h : p.Facing (InRules vs ws) q) :
    ∃ us, RulesLeft (p.current :: us) ∧ q.kind = p.kind ∧ p.unread = p.current :: (us ++ vs) ∧
      q.unread = p.current :: (us ++ ws) := by
  obtain ⟨us, hus, hne, hp, hq⟩ := h.unread
  cases us with
  | nil => exact absurd rfl hne
  | cons t us =>
    obtain rfl := current_of_unread hp
    exact ⟨us, hus, kind_of_unread hq rfl, hp, hq⟩

section Lists

variable {us vs ws : List Token}

/-- Lists that share what is left of rules are in lockstep. -/
lemma Lockstep.inRules : Lockstep Kind.Alike (InRules vs ws) where
  alike := by
    rintro t u ts us ⟨xs, -, hne, ht, hu⟩
    cases xs with
    | nil => exact absurd rfl hne
    | cons x xs =>
      cases ht
      cases hu
      exact .refl _
  behind := by
    rintro t u ts us ⟨xs, hx, hne, ht, hu⟩ hk
    cases xs with
    | nil => exact absurd rfl hne
    | cons x xs =>
      cases ht
      cases hu
      have hl : t.kind ≠ .lcurly := fun h => hk (h ▸ .ends rfl rfl)
      have hr : t.kind ≠ .rcurly := fun h => hk (h ▸ .ends rfl rfl)
      have hxs := hx.suffix (hx.leftover.tail hl) (List.suffix_cons t xs)
      exact ⟨xs, hxs, hx.ends.ne_nil hr, rfl, rfl⟩
  eof := .refl _

/-- What is left of rules stands behind a rule, also if nothing is. -/
lemma RulesLeft.behindRule (h : RulesLeft us) : BehindRule vs ws (us ++ vs) (us ++ ws) := by
  induction us with
  | nil => exact .inr ⟨rfl, rfl⟩
  | cons t us ih =>
    by_cases hf : t.kind.isFiller = true
    · have hl : t.kind ≠ .lcurly := ne_of_apply_ne Kind.isFiller (by rw [hf]; nofun)
      have hdrop : ∀ xs, dropFillers (t :: us ++ xs) = dropFillers (us ++ xs) := by
        have hfs : Fillers [t] := List.forall_mem_singleton.mpr hf
        exact fun xs => dropFillers_append hfs
      rw [BehindRule, hdrop, hdrop]
      exact ih (h.suffix (h.leftover.tail hl) (List.suffix_cons t us))
    · have hdrop : ∀ xs, dropFillers (t :: us ++ xs) = t :: us ++ xs :=
        fun xs => dropFillers_cons (Bool.eq_false_iff.mpr hf) _
      rw [BehindRule, hdrop, hdrop]
      exact .inl ⟨t :: us, h, List.cons_ne_nil t us, rfl, rfl⟩

end Lists

namespace Grammar

section Shared

variable {c : Token} {vs ws : List Token} {p q : Parser}

/-! ### Blocks -/

/-- Recovery inside of a block ends in front of its brace at the latest. -/
lemma resync_block (hc : c.kind = .rcurly) (h : p.Facing (Shared (c :: vs) (c :: ws)) q) :
    (p.resync .declaration).Facing (Shared (c :: vs) (c :: ws)) (q.resync .declaration) := by
  obtain ⟨us, hus, hp, hq⟩ := h.unread
  apply h.resync
  rw [hp, hq]
  rcases hus.rest_declaration with ⟨us', hus', hrest⟩ | hrest
  · exact ⟨us', hus', hrest _, hrest _⟩
  · have hstop : ∀ xs, Boundary.declaration.rest (c :: xs) = c :: xs :=
      fun xs => Boundary.restWithin_of_stopBefore (by rw [hc]; nofun) (by rw [hc]; rfl)
    rw [hrest, hrest, hstop, hstop]
    exact ⟨[], .nil, rfl, rfl⟩

/-- An item of a block is the same on both sides, unless both are on the brace that follows. -/
lemma blockItem_shared (hc : c.kind = .rcurly) (h : p.Facing (Shared (c :: vs) (c :: ws)) q) :
    p.Facing (fun xs ys => xs = c :: vs ∧ ys = c :: ws) q ∨
    ∃ r p' q', blockItem? p = (.ok (some r), p') ∧ blockItem? q = (.ok (some r), q') ∧
      p'.Facing (Shared (c :: vs) (c :: ws)) q' := by
  have hin : c.kind.isInner = false := by
    rw [hc]
    rfl
  have hL : Lockstep Kind.Alike (Shared (c :: vs) (c :: ws)) := .shared hin hin
  rcases h.of_shared with hu | ⟨hk, hne, hr, hadvance⟩
  · exact .inl ⟨hu, h.depth, h.limit⟩
  · right
    have hend : ¬ (p.kind = .rcurly ∨ p.kind = .eof) := not_or.mpr ⟨hr, hne⟩
    by_cases hs : p.kind = .semicolon
    · have ha := hadvance (by rw [hs]; nofun)
      exact ⟨none, _, _, blockItem_of_semicolon hs, blockItem_of_semicolon (hk.trans hs),
        ha.skipWhile hL Kind.uniform_isWhitespace.eq⟩
    · have hitem : declarationItem.Agrees (Parser.Facing (Shared (c :: vs) (c :: ws))) p q
          (Parser.Facing (Shared (c :: vs) (c :: ws))) :=
        declarationItem_agrees hL (fun _ _ h' => h') (fun _ _ h' => resync_block hc h') h
      obtain ⟨r, p', q', hp', hq', h'⟩ := hitem.of_total declarationItem_total
      refine ⟨r, _, _, blockItem_of_item hend hs hp', blockItem_of_item ?_ ?_ hq',
        h'.skipWhile hL Kind.uniform_isWhitespace.eq⟩
      · rwa [hk]
      · rwa [hk]

/-- The items of a block are read up to its brace. -/
lemma blockItems_shared {E : Parser → Parser → Prop} (hc : c.kind = .rcurly)
    (h : p.Facing (Shared (c :: vs) (c :: ws)) q) :
    (manySome blockItem?).Agrees E p q (Parser.Facing fun xs ys => xs = c :: vs ∧ ys = c :: ws) := by
  refine .manySome blockItem_advances (fun _ _ => blockItem_shared hc) ?_ h
  intro p q hd
  have hp : p.kind = .rcurly := Parser.kind_of_unread hd.unread.1 hc
  have hq : q.kind = .rcurly := Parser.kind_of_unread hd.unread.2 hc
  exact ⟨p, q, manySome_of_none (blockItem_of_end (.inl hp)),
    manySome_of_none (blockItem_of_end (.inl hq)), hd⟩

/-- A block is left in front of what is left of the rulesets behind it. -/
lemma block_behind {E : Parser → Parser → Prop} {us : List Token} (hp : p.kind = .lcurly)
    (hq : q.kind = .lcurly) (hc : c.kind = .rcurly) (hus : RulesLeft us)
    (h : p.advance.Facing (Shared (c :: (us ++ vs)) (c :: (us ++ ws))) q.advance) :
    block.Agrees E p q (Parser.Facing (BehindRule vs ws)) := by
  have hin : c.kind.isInner = false := by
    rw [hc]
    rfl
  have hexpect : (expect .lcurly).Agrees E p q
      (Parser.Facing (Shared (c :: (us ++ vs)) (c :: (us ++ ws)))) := by
    refine .kind_of_eq (by rw [hp, hq]) ?_
    rw [if_pos hp]
    exact .change h
  apply hexpect.bind
  intro _ p q h
  apply Agrees.bind (.change (h.skipWhile (.shared hin hin) Kind.uniform_isWhitespace.eq))
  intro _ p q h
  apply (blockItems_shared hc h).bind
  intro items p q h
  have hne : c.kind ≠ .eof := by
    rw [hc]
    nofun
  -- behind the brace, both sides go on with what is left of the rulesets
  have ha : p.advance.Facing (fun xs ys => xs = us ++ vs ∧ ys = us ++ ws) q.advance :=
    h.advance_of h.unread.1 h.unread.2 hne hne ⟨rfl, rfl⟩
  have hb : p.advance.skipBlanks.Facing (BehindRule vs ws) q.advance.skipBlanks := by
    apply ha.skipWhile_of
    rw [ha.unread.1, ha.unread.2]
    show BetweenRules vs ws (dropFillers (dropBlanks (us ++ vs)))
      (dropFillers (dropBlanks (us ++ ws)))
    rw [dropFillers_dropBlanks, dropFillers_dropBlanks]
    exact hus.behindRule
  exact .ok rfl rfl hb

/-- A block is the same on both sides, and rules are left behind it or none. -/
lemma block_shared (h : p.Facing (InRules vs ws) q) :
    block.Agrees (Parser.Facing (InRules vs ws)) p q (Parser.Facing (BehindRule vs ws)) := by
  obtain ⟨us, hus, hk, hp, hq⟩ := h.of_inRules
  by_cases hl : p.kind = .lcurly
  · obtain ⟨inner, c, us', rfl, hi, hc, hus'⟩ := hus.leftover.exists_block hl
    have hsuffix : us' <:+ inner ++ c :: us' :=
      (List.suffix_cons c us').trans (List.suffix_append inner _)
    have hleft : RulesLeft us' := hus.suffix hus' (hsuffix.trans (List.suffix_cons _ _))
    have hne : p.kind ≠ .eof := hus.leftover.ne_eof
    rw [List.append_assoc] at hp hq
    exact block_behind hl (hk.trans hl) hc hleft
      (h.advance_of hp hq hne hne ⟨inner, hi.leftover, rfl, rfl⟩)
  · have hexpect :
        (expect .lcurly).Agrees (Parser.Facing (InRules vs ws)) p q fun _ _ => False := by
      refine .kind_of_eq (by rw [hk]) ?_
      rw [if_neg hl]
      exact .unexpected h
    exact hexpect.bind fun _ _ _ hf => hf.elim

/-- A ruleset is the same on both sides, and rules are left behind it or none. -/
lemma ruleset_shared (h : p.Facing (InRules vs ws) q) :
    ruleset.Agrees (Parser.Facing (InRules vs ws)) p q (Parser.Facing (BehindRule vs ws)) := by
  apply Agrees.bind (R := Parser.Facing (InRules vs ws)) (.change (h.note _ _))
  intro _ p q h
  apply (selector_respects .inRules p q h).bind
  intro first p q h
  apply (furtherSelectors_respects .inRules p q h).bind
  intro others p q h
  apply (block_shared h).bind
  intro items p q h
  exact .pure h

/-- Recovery from a broken ruleset ends behind a block of what is left. -/
lemma resync_ruleset (h : p.Facing (InRules vs ws) q) :
    (p.resync .block).Facing (BehindRule vs ws) (q.resync .block) := by
  obtain ⟨us, hus, hne, hp, hq⟩ := h.unread
  obtain ⟨us', hus', hs, hrest⟩ := hus.leftover.rest_block hus.ends hne
  apply h.resync
  rw [hp, hq, hrest, hrest]
  exact (hus.suffix hus' hs).behindRule

/-- An item of the rulesets is the same on both sides, and rules are left behind it or none. -/
lemma rulesetItem_shared {E : Parser → Parser → Prop} (h : p.Facing (InRules vs ws) q) :
    rulesetItem.Agrees E p q (Parser.Facing (BehindRule vs ws)) := by
  obtain ⟨us, hus, hk, -, -⟩ := h.of_inRules
  refine .kind_of_eq (by rw [hk]) ?_
  split
  · next hu => exact absurd hu (hus.known p.current List.mem_cons_self)
  · split
    · exact .orResync .ruleset .block ruleset_run (ruleset_shared h) (fun _ _ h' => h')
        fun _ _ => resync_ruleset
    · exact .ok rfl rfl (resync_ruleset (h.note _ _))

/-- A further item of the rulesets is the same on both sides, or the shared rules have ended. -/
lemma nextRuleset_shared (h : p.Facing (BetweenRules vs ws) q) :
    p.Facing (fun xs ys => xs = dropFillers vs ∧ ys = dropFillers ws) q ∨
    ∃ r p' q', rulesetItem? p = (.ok (some r), p') ∧ rulesetItem? q = (.ok (some r), q') ∧
      p'.Facing (BetweenRules vs ws) q' := by
  rcases h.unread with hu | hu
  · right
    have hin : p.Facing (InRules vs ws) q := ⟨hu, h.depth, h.limit⟩
    obtain ⟨us, hus, hk, -, -⟩ := hin.of_inRules
    have hne : p.kind ≠ .eof := hus.leftover.ne_eof
    obtain ⟨r, p', q', hp, hq, h'⟩ :=
      (rulesetItem_shared (E := fun _ _ => False) hin).of_total rulesetItem_total
    exact ⟨r, _, _, nextRuleset_of_item hne hp, nextRuleset_of_item (hk ▸ hne) hq,
      h'.skipWhile_of h'.unread⟩
  · exact .inl ⟨hu, h.depth, h.limit⟩

/-- What is left of rulesets gives the same rulesets in front of any tokens, which come next. -/
lemma rulesets_shared (h : p.Facing (BetweenRules vs ws) q) :
    ∃ rs p' q', Collects rulesetItem? p rs p' ∧ Collects rulesetItem? q rs q' ∧
      p'.Facing (fun xs ys => xs = dropFillers vs ∧ ys = dropFillers ws) q' :=
  Collects.lockstep nextRuleset_advances (fun _ _ => nextRuleset_shared) h

end Shared

/-! ### The rulesets of a stylesheet -/

section Leading

variable {p q : Parser}

/-- An at-rule that is not known is skipped in front of the charset. -/
lemma leadingItem_of_atUnknown (h : p.kind = .atUnknown) :
    leadingItem? p = (.ok (some ()), p.skipAtRule) := by
  show (if p.kind = .atUnknown then _ else _ : ParseM _) p = _
  rw [if_pos h]
  rfl

/-- Nothing else stands in front of the charset. -/
lemma leadingItem_of_other (h : p.kind ≠ .atUnknown) : leadingItem? p = (.ok none, p) := by
  show (if p.kind = .atUnknown then _ else _ : ParseM _) p = _
  rw [if_neg h]
  rfl

/-- An at-rule that is not known is an item without a result. -/
lemma nextRuleset_of_atUnknown (h : p.kind = .atUnknown) :
    rulesetItem? p = (.ok (some none), p.skipAtRule.skipFiller) := by
  apply nextRuleset_of_item
  · rw [h]
    nofun
  · show (if p.kind = .atUnknown then _ else _ : ParseM _) p = _
    rw [if_pos h]
    rfl

/-- An at-rule that is not known does not stand between rules. -/
lemma skipFiller_of_atUnknown (h : p.kind = .atUnknown) : p.skipFiller = p :=
  Parser.skipWhile_of_stop (by rw [h]; rfl)

/-- At-rules in front of a stylesheet could as well stand between its rulesets. -/
lemma leading_collects (h : p.Facing UpToBrace q) :
    ∃ us p' q', many leadingItem? p = (.ok us, p') ∧
      Collects rulesetItem? q.skipFiller [] q'.skipFiller ∧ p'.Facing UpToBrace q' := by
  induction hn : p.ahead using Nat.strongRecOn generalizing p q with
  | ind n ih =>
    by_cases hk : p.kind = .atUnknown
    · have hq : q.kind = .atUnknown := (h.kind_eq (by rw [hk]; nofun)).trans hk
      have hstep := leadingItem_of_atUnknown hk
      have hlt := leadingItem_advances p _ _ hstep
      obtain ⟨us, p', q', hm, hc, hf⟩ := ih _ (hn ▸ hlt) (UpToBrace.steady.skipAtRule h) rfl
      refine ⟨() :: us, p', q', ?_, ?_, hf⟩
      · rw [many_of_some hstep hlt, hm]
        rfl
      · rw [skipFiller_of_atUnknown hq]
        exact .next (nextRuleset_of_atUnknown hq) hc
    · exact ⟨[], p, q, many_of_none (leadingItem_of_other hk), .refl _, h⟩

/-- At-rules in the place of imports could as well stand between rulesets. -/
lemma imports_collect (h : p.Facing UpToBrace q) (hno : ∀ t ∈ p.unread, t.kind ≠ .atImport) :
    ∃ is p' q', manySome importItem? p = (.ok is, p') ∧
      Collects rulesetItem? q.skipFiller [] q' ∧ p'.Facing UpToBrace q' := by
  induction hn : p.ahead using Nat.strongRecOn generalizing p q with
  | ind n ih =>
    obtain ⟨fs, hfs⟩ := p.skipFiller_reads
    have hf := UpToBrace.steady.skipFiller h
    by_cases hk : p.skipFiller.kind = .atUnknown
    · have hne : p.skipFiller.kind ≠ .eof := by
        rw [hk]
        nofun
      have hq : q.skipFiller.kind = .atUnknown := (hf.kind_eq hne).trans hk
      have hstep := importItem_of_atUnknown hk
      obtain ⟨ts, hts, -⟩ := Parser.skipAtRule_reads hne
      obtain ⟨is, p', q', hm, hc, hf'⟩ := ih _ (hn ▸ importItem_advances p _ _ hstep)
        (UpToBrace.steady.skipAtRule hf) (fun t ht => hno t ((hfs.trans hts).unread_subset ht)) rfl
      exact ⟨_, p', q', manySome_of_some importItem_advances hstep hm,
        .next (nextRuleset_of_atUnknown hq) hc, hf'⟩
    · have hi : p.skipFiller.kind ≠ .atImport :=
        hno _ (hfs.unread_subset p.skipFiller.current_mem_unread)
      exact ⟨[], _, _, manySome_of_none (importItem_of_other hk hi), .refl _, hf⟩

/-- There is no charset where its rule does not start. -/
lemma charset_of_other (h : p.kind ≠ .atCharset) :
    charset? p = (.ok none, p.note (.tried .charset)) := by
  show (if p.kind = .atCharset then _ else _ : ParseM _) (p.note _) = _
  rw [if_neg h]
  rfl

/-- Without a charset rule and imports, the rulesets of a stylesheet are those that are read from its
first token on. -/
lemma stylesheet_rulesets (h : p.Facing UpToBrace q)
    (hno : ∀ t ∈ p.unread, t.kind ≠ .atImport ∧ t.kind ≠ .atCharset) :
    ∃ s p' q', stylesheet p = (.ok s, p') ∧
      manySome rulesetItem? q.skipFiller = (.ok s.rulesets, q') := by
  have hn : (p.note (.tried .stylesheet)).Facing UpToBrace q := ⟨h.unread, h.depth, h.limit⟩
  obtain ⟨us, p₁, q₁, h₁, hc₁, hf₁⟩ := leading_collects hn
  have hno₁ : ∀ t ∈ p₁.unread, t.kind ≠ .atImport ∧ t.kind ≠ .atCharset := by
    intro t ht
    obtain ⟨_, hr, -⟩ := (Run.items (I := fun _ _ => True) leadingItem_run _).of_ok h₁
    exact hno t (hr.unread_subset ht)
  have h₂ := charset_of_other (hno₁ _ p₁.current_mem_unread).2
  have hf₂ : (p₁.note (.tried .charset)).Facing UpToBrace q₁ := ⟨hf₁.unread, hf₁.depth, hf₁.limit⟩
  obtain ⟨is, p₃, q₃, h₃, hc₃, hf₃⟩ := imports_collect hf₂ fun t ht => (hno₁ t ht).1
  obtain ⟨rs, p₄, q₄, h₄, hq₄, -⟩ :=
    (rulesets_agree (E := fun _ _ => False) hf₃).of_total nextRuleset_total.manySome
  refine ⟨⟨none, is, rs⟩, p₄, q₄, ?_, (hc₁.trans hc₃).manySome_eq nextRuleset_advances hq₄⟩
  refine (bind_apply_ok h₁ _).trans ((bind_apply_ok h₂ _).trans ((bind_apply_ok h₃ _).trans ?_))
  exact bind_apply_ok h₄ _

end Leading

/-- The stylesheet of a list without a charset rule and imports has the rulesets that are read from the
first token on. -/
lemma parse_rulesets (config : Config) {ts : List Token} (hts : NoEof ts)
    (hno : ∀ t ∈ ts, t.kind ≠ .atImport ∧ t.kind ≠ .atCharset) :
    ∃ s q, (parseSource (.tokens ts) config).result = .ok s ∧
      manySome rulesetItem? (Parser.ofSource (.tokens ts) config).skipFiller =
        (.ok s.rulesets, q) := by
  have hself := Parser.facing_self hts config
  have hf : ((Parser.ofSource (.tokens ts) config).note (.reading config.source)).Facing UpToBrace
      (Parser.ofSource (.tokens ts) config) := ⟨hself.unread, rfl, rfl⟩
  have hunread : ∀ t ∈ (Parser.ofSource (.tokens ts) config).unread,
      t.kind ≠ .atImport ∧ t.kind ≠ .atCharset := by
    intro t ht
    rw [Parser.unread_of_noEof hts] at ht
    rcases List.mem_append.mp ht with ht | ht
    · exact hno t ht
    · rw [List.mem_singleton.mp ht]
      exact ⟨nofun, nofun⟩
  obtain ⟨s, _, q, hs, hrs⟩ := stylesheet_rulesets hf hunread
  exact ⟨s, q, Parser.report_of_ok (m := document) hs, hrs⟩

/-- The rulesets of a list with other tokens behind it are those of the list alone, and what stands
behind it is then in front of the parser. -/
lemma rulesets_left (config : Config) {ts us : List Token} (hts : RulesLeft ts) (hus : NoEof us) :
    ∃ rs p q, Collects rulesetItem? (Parser.ofSource (.tokens (ts ++ us)) config).skipFiller rs p ∧
      p.Facing UpToBrace (Parser.ofSource (.tokens us) config).skipFiller ∧
      manySome rulesetItem? (Parser.ofSource (.tokens ts) config).skipFiller = (.ok rs, q) := by
  have hne := hts.leftover.noEof
  have hlists : (Parser.ofSource (.tokens (ts ++ us)) config).Facing
      (fun xs ys => xs = ts ++ (us ++ [⟨.eof, .origin⟩]) ∧ ys = ts ++ [⟨.eof, .origin⟩])
      (Parser.ofSource (.tokens ts) config) := by
    refine ⟨⟨?_, Parser.unread_of_noEof hne config⟩, rfl, rfl⟩
    rw [Parser.unread_of_noEof (noEof_append.mpr ⟨hne, hus⟩), List.append_assoc]
  have hfacing : (Parser.ofSource (.tokens (ts ++ us)) config).skipFiller.Facing
      (BetweenRules (us ++ [⟨.eof, .origin⟩]) [⟨.eof, .origin⟩])
      (Parser.ofSource (.tokens ts) config).skipFiller := by
    apply hlists.skipWhile_of
    rw [hlists.unread.1, hlists.unread.2]
    exact hts.behindRule
  obtain ⟨rs, p, q, hp, hq, hd⟩ := rulesets_shared hfacing
  -- the shorter list is at its end, so its rulesets are all there are
  have hend : q.kind = .eof := Parser.kind_of_unread hd.unread.2 rfl
  have hrs := hq.manySome_of_end nextRuleset_advances (nextRuleset_of_eof hend)
  refine ⟨rs, p, q, hp, ?_, hrs⟩
  have hstart : (Parser.ofSource (.tokens (ts ++ us)) config).Facing (fun _ _ => True)
      (Parser.ofSource (.tokens us) config) := ⟨trivial, rfl, rfl⟩
  obtain ⟨_, hf⟩ := (Parser.ofSource (.tokens (ts ++ us)) config).skipFiller_reads
  obtain ⟨_, hr⟩ := hp.reads nextRuleset_run
  obtain ⟨_, hf'⟩ := (Parser.ofSource (.tokens us) config).skipFiller_reads
  refine hstart.of_reads (hf.trans hr) hf' ?_
  rw [hd.unread.1, ← Parser.unread_of_noEof hus config, ← Parser.skipFiller_unread]
  exact (UpToBrace.steady.skipFiller (Parser.facing_self hus config)).unread

end Grammar

open Grammar in
/-- A broken ruleset does no harm to what follows: behind a list of items that look like rulesets,
whether they are valid or not, everything is read as if it stood alone. -/
theorem rulesets_isolated (config : Config) (ts us : List Token) (hts : RuleShaped ts)
    (hknown : ∀ t ∈ ts, t.kind ≠ .atUnknown ∧ t.kind ≠ .atImport ∧ t.kind ≠ .atCharset)
    (hus : ∀ t ∈ us, t.kind ≠ .eof ∧ t.kind ≠ .atImport ∧ t.kind ≠ .atCharset) :
    ∃ s x y, (parseSource (.tokens (ts ++ us)) config).result = .ok s ∧
      (parseSource (.tokens ts) config).result = .ok x ∧
      (parseSource (.tokens us) config).result = .ok y ∧
      s.rulesets = x.rulesets ++ y.rulesets := by
  obtain ⟨hleft, hends⟩ := hts.leftover
  have hne : NoEof us := fun t ht => (hus t ht).1
  obtain ⟨s, _, hs, hsr⟩ := parse_rulesets config (noEof_append.mpr ⟨hleft.noEof, hne⟩)
    (List.forall_mem_append.mpr ⟨fun t ht => (hknown t ht).2, fun t ht => (hus t ht).2⟩)
  obtain ⟨x, _, hx, hxr⟩ := parse_rulesets config hleft.noEof fun t ht => (hknown t ht).2
  obtain ⟨y, _, hy, hyr⟩ := parse_rulesets config hne fun t ht => (hus t ht).2
  obtain ⟨as, p, _, hp, hbehind, has⟩ :=
    rulesets_left config ⟨hleft, hends, fun t ht => (hknown t ht).1⟩ hne
  obtain ⟨bs, _, _, hb, hbs, -⟩ :=
    (rulesets_agree (E := fun _ _ => False) hbehind).of_total nextRuleset_total.manySome
  have hall := hp.manySome_eq nextRuleset_advances hb
  refine ⟨s, x, y, hs, hx, hy, ?_⟩
  calc s.rulesets
      = as ++ bs := Except.ok.inj (Prod.mk.inj (hsr.symm.trans hall)).1
    _ = x.rulesets ++ bs := by rw [Except.ok.inj (Prod.mk.inj (hxr.symm.trans has)).1]
    _ = x.rulesets ++ y.rulesets := by rw [Except.ok.inj (Prod.mk.inj (hyr.symm.trans hbs)).1]

/-- The tokens of `a[{}b{}]{}`, a broken ruleset with another one inside of its brackets. -/
def rulesetInCondition : List Token :=
  [.ident "a", .lbracket, .lcurly, .rcurly, .ident "b", .lcurly, .rcurly, .rbracket, .lcurly,
    .rcurly].map (Token.mk · .origin)

/-- The tokens of `a[{}b{}]{}` are shaped like a rule. -/
lemma ruleShaped_rulesetInCondition : RuleShaped rulesetInCondition := by
  refine @RuleShaped.cons ⟨.lcurly, .origin⟩ ⟨.rcurly, .origin⟩ (rulesetInCondition.take 8) [] [] ?_
    (by decide) rfl .nil rfl .nil
  refine .cons rfl rfl (by decide) ?_
  refine @Nested.enclose ⟨.lbracket, .origin⟩ ⟨.rbracket, .origin⟩ .square
    ([.lcurly, .rcurly, .ident "b", .lcurly, .rcurly].map (Token.mk · .origin)) [] rfl rfl ?_ .nil
  refine @Nested.enclose ⟨.lcurly, .origin⟩ ⟨.rcurly, .origin⟩ .curly [] _ rfl rfl .nil ?_
  refine .cons rfl rfl (by decide) ?_
  exact @Nested.enclose _ _ .curly [] [] rfl rfl .nil .nil

/-- The tokens of `c{}`. -/
def followingRuleset : List Token :=
  [.ident "c", .lcurly, .rcurly].map (Token.mk · .origin)

/-- The broken ruleset is resumed inside of its brackets and gives one ruleset there, and the ruleset
behind it is kept as well. -/
theorem rulesets_isolated_broken :
    ∃ s x y, (parseSource (.tokens (rulesetInCondition ++ followingRuleset)) {}).result = .ok s ∧
      (parseSource (.tokens rulesetInCondition) {}).result = .ok x ∧
      (parseSource (.tokens followingRuleset) {}).result = .ok y ∧
      s.rulesets = x.rulesets ++ y.rulesets ∧ x.rulesets.length = 1 ∧ y.rulesets.length = 1 := by
  obtain ⟨s, x, y, hs, hx, hy, hsum⟩ := rulesets_isolated {} rulesetInCondition followingRuleset
    ruleShaped_rulesetInCondition (by decide) (by decide)
  exact ⟨s, x, y, hs, hx, hy, hsum, eq_of_toOption_map (·.rulesets.length) 1 hx (by decide +kernel),
    eq_of_toOption_map (·.rulesets.length) 1 hy (by decide +kernel)⟩

end CssSyntax
