import CssSyntax.Proofs.Steadiness

/-!
# The end of the input

The end of the input closes whatever is open, so a brace in front of it changes nothing. `UpToBrace`
relates lists of tokens that differ in no more than that. It is steady: also where recovery or the
skipping of an at-rule runs into the end, and where a block is left at the end or behind the brace.
Only the outermost loops tell a brace from the end of the input, and they skip it.

Lists without such a brace are related too. So what is read depends on nothing but the tokens in
front of a parser and the function depth (`Grammar.rulesets_agree`, `Grammar.items_agree`).
-/

namespace CssSyntax

/-- Kinds of tokens in the same place of two lists of which the second may have one more brace. -/
inductive Kind.EndsAlike : Kind → Kind → Prop where
  | refl (k : Kind) : EndsAlike k k
  | brace : EndsAlike .eof .rcurly

namespace Kind.EndsAlike

/-- What is the same for the end of the input and a brace is the same for kinds that end alike. -/
lemma eq {β : Type} {f : Kind → β} (hf : f .eof = f .rcurly) (k l : Kind) (h : k.EndsAlike l) :
    f k = f l := by
  cases h with
  | refl => rfl
  | brace => exact hf

/-- Kinds that end alike are similar. -/
lemma similar (k l : Kind) (h : k.EndsAlike l) : k.Similar l := by
  cases h with
  | refl => exact .refl k
  | brace => exact .brace

end Kind.EndsAlike

/-- Lists of tokens that are the same up to the end of the input, with a brace in front of it or
without. -/
inductive UpToBrace : List Token → List Token → Prop where
  | eof {d e : Token} : d.kind = .eof → e.kind = .eof → UpToBrace [d] [e]
  | brace {d r e : Token} :
    d.kind = .eof → r.kind = .rcurly → e.kind = .eof → UpToBrace [d] [r, e]
  | cons {t : Token} {ts us : List Token} :
    t.kind ≠ .eof → UpToBrace ts us → UpToBrace (t :: ts) (t :: us)

namespace UpToBrace

/-- Tokens in front of both lists keep them the same up to a brace at the end. -/
lemma append {ts us vs : List Token} (hts : NoEof ts) (h : UpToBrace us vs) :
    UpToBrace (ts ++ us) (ts ++ vs) := by
  induction ts with
  | nil => exact h
  | cons t ts ih =>
    obtain ⟨ht, hts⟩ := List.forall_mem_cons.mp hts
    exact .cons ht (ih hts)

/-- Lists that are the same up to a brace at the end are in lockstep. -/
lemma lockstep : Lockstep Kind.EndsAlike UpToBrace where
  alike := by
    intro t u ts us h
    cases h with
    | eof hd he =>
      rw [hd, he]
      exact .refl _
    | brace hd hr _ =>
      rw [hd, hr]
      exact .brace
    | cons _ _ => exact .refl _
  behind := by
    intro t u ts us h hne
    cases h with
    | eof hd _ => exact absurd (hd ▸ .refl _) hne
    | brace hd _ _ => exact absurd (hd ▸ .refl _) hne
    | cons _ h => exact h
  eof := .refl _

/-- Recovery stops at the end of the input, in front of the brace or behind it. -/
lemma restWithin {ts us : List Token} (h : UpToBrace ts us) (boundary : Boundary)
    (brackets : List Bracket) :
    UpToBrace (boundary.restWithin brackets ts) (boundary.restWithin brackets us) := by
  induction h generalizing brackets with
  | eof hd he =>
    rw [Boundary.restWithin_of_eof hd, Boundary.restWithin_of_eof he]
    exact .eof hd he
  | @brace d r e hd hr he =>
    have hne : r.kind ≠ .eof := by
      rw [hr]
      nofun
    rw [Boundary.restWithin_of_eof hd]
    -- Only the second list has the brace: recovery stops on either side of it or skips it.
    cases hv : boundary.verdict brackets r.kind with
    | stopBefore =>
      rw [Boundary.restWithin_of_stopBefore hne hv]
      exact .brace hd hr he
    | stopBehind =>
      rw [Boundary.restWithin_of_stopBehind hne hv]
      exact .eof hd he
    | skip =>
      rw [Boundary.restWithin_of_skip hne hv, Boundary.restWithin_of_eof he]
      exact .eof hd he
  | @cons t ts us ht h ih =>
    cases hv : boundary.verdict brackets t.kind with
    | stopBefore =>
      rw [Boundary.restWithin_of_stopBefore ht hv, Boundary.restWithin_of_stopBefore ht hv]
      exact .cons ht h
    | stopBehind =>
      rw [Boundary.restWithin_of_stopBehind ht hv, Boundary.restWithin_of_stopBehind ht hv]
      exact h
    | skip =>
      rw [Boundary.restWithin_of_skip ht hv, Boundary.restWithin_of_skip ht hv]
      exact ih _

/-- An at-rule that is not closed ends with the input. -/
lemma atRuleRest {ts us : List Token} (h : UpToBrace ts us) (depth : Nat) :
    UpToBrace (atRuleRest depth ts) (CssSyntax.atRuleRest depth us) := by
  induction h generalizing depth with
  | eof hd he =>
    simp only [CssSyntax.atRuleRest, hd, he]
    exact .eof hd he
  | brace hd hr he =>
    simp only [CssSyntax.atRuleRest, hd, hr, he]
    exact .eof hd he
  | cons ht h ih =>
    unfold CssSyntax.atRuleRest
    split
    · next hk => exact absurd hk ht
    · exact ih _
    · split
      · exact h
      · exact ih _
    · split
      · exact h
      · exact ih _
    · exact ih _

/-- The brace is moved past where the end of the input is not left. -/
lemma behindFirst {ts us : List Token} (h : UpToBrace ts us) :
    UpToBrace (behindFirst ts) (CssSyntax.behindFirst us) := by
  cases h with
  | eof hd he => exact .eof hd he
  | brace hd _ he => exact .eof hd he
  | cons ht h =>
    cases h with
    | eof hd he => exact .eof hd he
    | brace hd hr he => exact .brace hd hr he
    | cons hu h => exact .cons hu h

/-- What stands between rules is dropped from both lists. -/
lemma dropFillers {ts us : List Token} (h : UpToBrace ts us) :
    UpToBrace (dropFillers ts) (CssSyntax.dropFillers us) := by
  induction h with
  | eof hd he =>
    rw [dropFillers_cons (by rw [hd]; rfl), dropFillers_cons (by rw [he]; rfl)]
    exact .eof hd he
  | brace hd hr he =>
    rw [dropFillers_cons (by rw [hd]; rfl), dropFillers_cons (by rw [hr]; rfl)]
    exact .brace hd hr he
  | @cons t ts us ht h ih =>
    cases hf : t.kind.isFiller with
    | true =>
      have hfs : Fillers [t] := List.forall_mem_singleton.mpr hf
      have hdrop : ∀ vs, CssSyntax.dropFillers (t :: vs) = CssSyntax.dropFillers vs :=
        fun vs => show CssSyntax.dropFillers ([t] ++ vs) = _ from dropFillers_append hfs
      rw [hdrop, hdrop]
      exact ih
    | false =>
      rw [dropFillers_cons hf, dropFillers_cons hf]
      exact .cons ht h

/-- Lists that are the same up to a brace at the end stay so, whatever is read or skipped of them.
-/
lemma steady : Steady UpToBrace where
  lockstep := lockstep.mono Kind.EndsAlike.similar
  behindFirst := behindFirst
  restWithin := restWithin
  atRuleRest := atRuleRest

end UpToBrace

namespace Parser

variable {p q : Parser}

namespace Facing

/-- In front of the end of the input both parsers see the same. -/
lemma kind_eq (h : p.Facing UpToBrace q) (hne : p.kind ≠ .eof) : q.kind = p.kind := by
  have hk := h.kind UpToBrace.lockstep
  generalize p.kind = k at hk hne ⊢
  generalize q.kind = l at hk ⊢
  cases hk with
  | refl => rfl
  | brace => exact absurd rfl hne

/-- At the end of the input there is at most a brace in front of the other parser. -/
lemma unread_of_eof (h : p.Facing UpToBrace q) (he : p.kind = .eof) :
    (∃ e, q.unread = [e] ∧ e.kind = .eof) ∨
      ∃ r e, q.unread = [r, e] ∧ r.kind = .rcurly ∧ e.kind = .eof := by
  have hu := h.unread
  obtain ⟨ts, hp⟩ := p.unread_eq_cons
  rw [hp] at hu
  generalize q.unread = ys at hu
  cases hu with
  | eof _ hk => exact .inl ⟨_, rfl, hk⟩
  | brace _ hr hk => exact .inr ⟨_, _, rfl, hr, hk⟩
  | cons hne _ => exact absurd he hne

end Facing

end Parser

/-- A parser of a list faces what any other parser of this list does. -/
lemma Parser.facing_self {ts : List Token} (h : NoEof ts) (config : Config) :
    (ofSource (.tokens ts) config).Facing UpToBrace (ofSource (.tokens ts) config) := by
  refine ⟨?_, rfl, rfl⟩
  rw [unread_of_noEof h]
  exact .append h (.eof rfl rfl)

namespace Grammar

open ParseM

/-- A string in double quotes is read alike up to a brace at the end. -/
lemma doubleQuoted_upToBrace : doubleQuoted.Respects UpToBrace := by
  refine .kind UpToBrace.lockstep (Kind.EndsAlike.eq rfl) fun k => Respects.at_kind ?_
  split
  · split
    · exact UpToBrace.steady.advance_respects.bind_pure
    · exact .unexpected _
  · exact .unexpected _

/-- A charset rule is read alike up to a brace at the end. -/
lemma charsetRule_upToBrace : charsetRule.Respects UpToBrace := by
  have hL := UpToBrace.steady
  apply (hL.expect_respects ⟨rfl, rfl, rfl⟩ (by nofun)).bind
  intro _
  refine .kind UpToBrace.lockstep (Kind.EndsAlike.eq rfl) fun k => Respects.at_kind ?_
  split
  · apply hL.advance_respects.bind
    intro _
    apply doubleQuoted_upToBrace.bind
    intro name
    exact (hL.expect_respects ⟨rfl, rfl, rfl⟩ (by nofun)).bind_pure
  · exact .unexpected _

/-! ### The outermost loops -/

section Loops

variable {p q : Parser}

/-- At the end of the input there is no further ruleset. -/
lemma nextRuleset_of_eof (h : p.kind = .eof) : rulesetItem? p = (.ok none, p) := by
  show (if p.kind = .eof then _ else _ : ParseM _) p = _
  rw [if_pos h]
  rfl

/-- Behind an item of the rulesets, what stands between rules is skipped. -/
lemma nextRuleset_of_item {item : Option Ruleset} (hne : p.kind ≠ .eof)
    (h : rulesetItem p = (.ok item, q)) : rulesetItem? p = (.ok (some item), q.skipFiller) := by
  show (if p.kind = .eof then _ else _ : ParseM _) p = _
  rw [if_neg hne, bind_apply_ok h]
  rfl

/-- In front of the end of the input both parsers read the same ruleset. -/
lemma nextRuleset_agrees (h : p.Facing UpToBrace q) :
    (p.Facing UpToBrace q ∧ p.kind = .eof) ∨
    ∃ r p' q', rulesetItem? p = (.ok (some r), p') ∧ rulesetItem? q = (.ok (some r), q') ∧
      p'.Facing UpToBrace q' := by
  by_cases he : p.kind = .eof
  · exact .inl ⟨h, he⟩
  · have hne : q.kind ≠ .eof := by rwa [h.kind_eq he]
    obtain ⟨r, p', q', hp, hq, h'⟩ :=
      (rulesetItem_respects UpToBrace.steady p q h).of_total rulesetItem_total
    exact .inr ⟨r, _, _, nextRuleset_of_item he hp, nextRuleset_of_item hne hq,
      UpToBrace.steady.skipFiller h'⟩

/-- A brace that closes nothing is skipped, and behind it there is nothing left to read. -/
lemma rulesets_at_end (h : p.Facing UpToBrace q) (he : p.kind = .eof) :
    ∃ q', manySome rulesetItem? q = (.ok [], q') := by
  rcases h.unread_of_eof he with ⟨e, hu, hk⟩ | ⟨r, e, hu, hr, hk⟩
  · obtain rfl := Parser.current_of_unread hu
    exact ⟨q, manySome_of_none (nextRuleset_of_eof hk)⟩
  · obtain rfl := Parser.current_of_unread hu
    have hq : q.kind = .rcurly := hr
    have hitem : rulesetItem q = (.ok none, (q.note (.ignoredRuleset q.current)).resync .block) := by
      show (if q.kind = .atUnknown then _ else
        if q.kind.startsSelector then _ else _ : ParseM _) q = _
      rw [hq]
      rfl
    have hrest : ((q.note (.ignoredRuleset q.current)).resync .block).skipFiller.unread = [e] := by
      have hskip : Boundary.block.rest [q.current, e] = [e] := by
        rw [Leftover.rest_stray (b := .curly) (by rw [hr]; rfl) (verdict_block_outside _)]
        exact Boundary.restWithin_of_eof hk
      rw [Parser.skipFiller_unread, Parser.resync_unread]
      show dropFillers (Boundary.block.rest q.unread) = [e]
      rw [hu, hskip, dropFillers_cons (by rw [hk]; rfl)]
    obtain rfl := Parser.current_of_unread hrest
    refine ⟨_, manySome_of_some nextRuleset_advances (nextRuleset_of_item ?_ hitem)
      (manySome_of_none (nextRuleset_of_eof hk))⟩
    rw [hq]
    nofun

/-- The rulesets of two parsers are the same up to a brace at the end of the input. -/
lemma rulesets_agree {E : Parser → Parser → Prop} (h : p.Facing UpToBrace q) :
    (manySome rulesetItem?).Agrees E p q fun _ _ => True := by
  refine .manySome nextRuleset_advances (fun _ _ => nextRuleset_agrees) ?_ h
  rintro p q ⟨h, he⟩
  obtain ⟨q', hq⟩ := rulesets_at_end h he
  exact ⟨p, q', manySome_of_none (nextRuleset_of_eof he), hq, trivial⟩

/-- A stylesheet is read alike up to a brace at the end. -/
lemma stylesheet_agrees (h : p.Facing UpToBrace q) :
    stylesheet.Agrees (Parser.Facing UpToBrace) p q fun _ _ => True :=
  stylesheet_agrees_of UpToBrace.steady charsetRule_upToBrace (fun _ _ => rulesets_agree) h

/-! The items of a list of declarations start behind blanks. -/

/-- An item of a list moves the window on. -/
lemma listItem_advances : Advances listItem? :=
  .of_run listItem_run

/-- At the end of the input there is no further declaration of a list. -/
lemma listItem_of_eof (h : p.skipBlanks.kind = .eof) :
    listItem? p = (.ok none, p.skipBlanks) := by
  rw [listItem?, skipBlanks, change_bind_apply, kind_bind_apply]
  rw [h]
  rfl

/-- A semicolon or a brace in a list is moved past. -/
lemma listItem_of_separator (h : p.skipBlanks.kind = .semicolon ∨ p.skipBlanks.kind = .rcurly) :
    listItem? p = (.ok (some none), p.skipBlanks.advance) := by
  rw [listItem?, skipBlanks, change_bind_apply, kind_bind_apply]
  rcases h with h | h
  · rw [h]
    rfl
  · rw [h]
    rfl

/-- Anything else in a list is an item of declarations. -/
lemma listItem_of_item {item : Option Declaration} (he : p.skipBlanks.kind ≠ .eof)
    (hs : ¬ (p.skipBlanks.kind = .semicolon ∨ p.skipBlanks.kind = .rcurly))
    (h : declarationItem p.skipBlanks = (.ok item, q)) : listItem? p = (.ok (some item), q) := by
  rw [listItem?, skipBlanks, change_bind_apply, kind_bind_apply]
  generalize p.skipBlanks.kind = k at he hs ⊢
  split
  · exact absurd rfl he
  · exact absurd (.inl rfl) hs
  · exact absurd (.inr rfl) hs
  · exact bind_apply_ok h _

/-- In front of the end of the input both parsers read the same item. -/
lemma listItem_agrees (h : p.Facing UpToBrace q) :
    (p.Facing UpToBrace q ∧ p.skipBlanks.kind = .eof) ∨
    ∃ r p' q', listItem? p = (.ok (some r), p') ∧ listItem? q = (.ok (some r), q') ∧
      p'.Facing UpToBrace q' := by
  have hb := UpToBrace.steady.skipBlanks h
  by_cases he : p.skipBlanks.kind = .eof
  · exact .inl ⟨h, he⟩
  · right
    have hk := hb.kind_eq he
    by_cases hs : p.skipBlanks.kind = .semicolon ∨ p.skipBlanks.kind = .rcurly
    · exact ⟨none, _, _, listItem_of_separator hs, listItem_of_separator (hk ▸ hs),
        UpToBrace.steady.advance hb⟩
    · obtain ⟨r, p', q', hp, hq, h'⟩ :=
        (declarationItem_respects UpToBrace.steady _ _ hb).of_total declarationItem_total
      exact ⟨r, p', q', listItem_of_item he hs hp, listItem_of_item (hk ▸ he) (hk ▸ hs) hq, h'⟩

/-- A list that has ended on one side has no declarations left on the other. -/
lemma items_at_end (h : p.Facing UpToBrace q) (he : p.skipBlanks.kind = .eof) :
    ∃ q', manySome listItem? q = (.ok [], q') := by
  rcases (UpToBrace.steady.skipBlanks h).unread_of_eof he with ⟨e, hu, hk⟩ | ⟨r, e, hu, hr, hk⟩
  · obtain rfl := Parser.current_of_unread hu
    exact ⟨_, manySome_of_none (listItem_of_eof hk)⟩
  · obtain ⟨rfl, ha⟩ := Parser.unread_advance hu (by rw [hr]; nofun)
    have hend : q.skipBlanks.advance.skipBlanks.unread = [e] := by
      rw [Parser.skipBlanks_unread, ha]
      exact dropBlanks_of_startsWith ⟨e, [], rfl, by rw [hk]; rfl⟩
    obtain rfl := Parser.current_of_unread hend
    exact ⟨_, manySome_of_some listItem_advances (listItem_of_separator (.inr hr))
      (manySome_of_none (listItem_of_eof hk))⟩

/-- The declarations of two parsers are the same up to a brace at the end of the input. -/
lemma items_agree {E : Parser → Parser → Prop} (h : p.Facing UpToBrace q) :
    (manySome listItem?).Agrees E p q fun _ _ => True := by
  refine .manySome listItem_advances (fun _ _ => listItem_agrees) ?_ h
  rintro p q ⟨h, he⟩
  obtain ⟨q', hq⟩ := items_at_end h he
  exact ⟨_, q', manySome_of_none (listItem_of_eof he), hq, trivial⟩

/-- A list of declarations is read alike up to a brace at the end. -/
lemma declarations_agree (h : p.Facing UpToBrace q) :
    declarations.Agrees (Parser.Facing UpToBrace) p q fun _ _ => True := by
  apply Agrees.bind (R := Parser.Facing UpToBrace) (.change (h.note _ _))
  intro _ p q h
  exact items_agree h

end Loops

end Grammar

open Grammar in
/-- The end of the input closes what is open: a brace as the last token changes neither the stylesheet
nor the declarations that are read, wherever the other tokens end. -/
theorem brace_at_end_changes_nothing (config : Config) (ts : List Token) (r : Token) (h : NoEof ts)
    (hr : r.kind = .rcurly) :
    (∃ s, (parseSource (.tokens (ts ++ [r])) config).result = .ok s ∧
      (parseSource (.tokens ts) config).result = .ok s) ∧
    ∃ ds, ((Parser.ofSource (.tokens (ts ++ [r])) config).report declarations).result = .ok ds ∧
      ((Parser.ofSource (.tokens ts) config).report declarations).result = .ok ds := by
  have hf : (Parser.ofSource (.tokens ts) config).Facing UpToBrace
      (Parser.ofSource (.tokens (ts ++ [r])) config) := by
    have hne : NoEof (ts ++ [r]) :=
      noEof_append.mpr ⟨h, List.forall_mem_singleton.mpr (by rw [hr]; nofun)⟩
    refine ⟨?_, rfl, rfl⟩
    rw [Parser.unread_of_noEof h, Parser.unread_of_noEof hne, List.append_assoc]
    exact .append h (.brace rfl hr rfl)
  constructor
  · obtain ⟨s, p', q', hp, hq, -⟩ :=
      (stylesheet_agrees (hf.note (.reading config.source) (.reading config.source))).of_total
        stylesheet_total
    exact ⟨s, Parser.report_of_ok (m := document) hq, Parser.report_of_ok (m := document) hp⟩
  · obtain ⟨ds, p', q', hp, hq, -⟩ := (declarations_agree hf).of_total declarations_total
    exact ⟨ds, Parser.report_of_ok hq, Parser.report_of_ok hp⟩

/-- What a result is seen to have. -/
lemma eq_of_toOption_map {ε α β : Type} {r : Except ε α} {a : α} (f : α → β) (b : β)
    (h : r = .ok a) (hf : r.toOption.map f = some b) : f a = b := by
  rw [h] at hf
  exact Option.some.inj hf

/-- The tokens of `a{b:c;d:f(`, with a block and a call that are not closed. -/
def openCall : List Token :=
  [.ident "a", .lcurly, .ident "b", .colon, .ident "c", .semicolon, .ident "d", .colon,
    .function "f"].map (Token.mk · .origin)

/-- The block is closed with one declaration in it, by the end of the input as by a brace. -/
theorem brace_at_end_changes_nothing_openCall :
    (∃ s, (parseSource (.tokens (openCall ++ [⟨.rcurly, .origin⟩])) {}).result = .ok s ∧
      (parseSource (.tokens openCall) {}).result = .ok s ∧
      s.rulesets.map (·.declarations.length) = [1]) ∧
    ∃ ds, ((Parser.ofSource (.tokens (openCall ++ [⟨.rcurly, .origin⟩])) {}).report
        Grammar.declarations).result = .ok ds ∧
      ((Parser.ofSource (.tokens openCall) {}).report Grammar.declarations).result = .ok ds := by
  obtain ⟨⟨s, hs, hs'⟩, hds⟩ :=
    brace_at_end_changes_nothing {} openCall ⟨.rcurly, .origin⟩ (by simp [openCall]) rfl
  refine ⟨⟨s, hs, hs', ?_⟩, hds⟩
  exact eq_of_toOption_map (·.rulesets.map (·.declarations.length)) [1] hs' (by decide +kernel)

end CssSyntax
