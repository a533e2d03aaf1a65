import CssSyntax.Proofs.Resumption
import CssSyntax.Proofs.RoundTrip

/-!
# Steady relations

A relation between lists of tokens is steady if it is in lockstep and is kept by everything that moves
past tokens without looking for a production: moving on, which is no move at the end of the input,
recovery, and the skipping of an at-rule. Parsers that face steadily related lists stay in lockstep in
rulesets, imports and at-rules as they do in selectors and declarations.

These productions tell neither blanks apart, however they are written, nor the quotes of strings, and
they take a brace that closes a block for the end of the input (`Kind.Similar`). Only the charset rule
looks at blanks and quotes, and only the outermost loops tell a brace from the end. So a stylesheet is
read in lockstep if its charset rule and its rulesets are (`Grammar.stylesheet_agrees_of`).
-/

namespace CssSyntax

/-- Kinds that no production tells apart but the charset rule and the outermost loops. -/
inductive Kind.Similar : Kind → Kind → Prop where
  | refl (k : Kind) : Similar k k
  | blanks (a b : String) : Similar (.whitespace a) (.whitespace b)
  | quotes (v : String) (a b : Char) : Similar (.string v a) (.string v b)
  | brace : Similar .eof .rcurly

/-- What depends on a kind but does not tell similar kinds apart. -/
structure Kind.Regular {β : Type} (f : Kind → β) : Prop where
  blanks : (fun blanks => f (.whitespace blanks)) = fun _ => f (.whitespace "")
  quotes : (fun v quote => f (.string v quote)) = fun v _ => f (.string v '"')
  brace : f .eof = f .rcurly

namespace Kind

/-- Kinds that are similar are alike. -/
lemma Similar.alike (k l : Kind) (h : k.Similar l) : k.Alike l := by
  cases h with
  | refl => exact .refl k
  | blanks a b => exact .blanks a b
  | quotes v a b => exact .quotes v a b
  | brace => exact .ends rfl rfl

/-- Kinds that are similar have the same regular values. -/
lemma Regular.eq {β : Type} {f : Kind → β} (hf : Regular f) (k l : Kind) (h : k.Similar l) :
    f k = f l := by
  cases h with
  | refl => rfl
  | blanks a b => exact (congrFun hf.blanks a).trans (congrFun hf.blanks b).symm
  | quotes v a b =>
    exact (congrFun (congrFun hf.quotes v) a).trans (congrFun (congrFun hf.quotes v) b).symm
  | brace => exact hf.brace

/-- Symbols and at-keywords are told apart from all other kinds. -/
lemma Similar.eq_iff {k : Kind} (hk : Regular fun l => decide (l = k)) (l m : Kind)
    (h : l.Similar m) : l = k ↔ m = k := by
  have hdecide := hk.eq l m h
  rw [decide_eq_decide] at hdecide
  exact hdecide

end Kind

/-- The tokens behind the first one; the last token is not left. -/
def behindFirst : List Token → List Token
  | _ :: u :: ts => u :: ts
  | ts => ts

/-- A move leaves what is behind the first token, unless this is the last one. -/
lemma Parser.advance_unread (p : Parser) : p.advance.unread = behindFirst p.unread := by
  by_cases hm : p.CanMove
  · obtain ⟨ts, ha⟩ := p.advance.unread_eq_cons
    rw [hm.unread, ha]
    rfl
  · obtain ⟨hk, hb⟩ := not_or.mp hm
    have hu : p.unread = [p.current] := by
      have he : p.current.kind = .eof := not_not.mp hk
      simp only [Parser.unread, not_not.mp hb, Parser.unreadFrom, he, if_true]
    rw [Parser.advance_of_not_canMove hm, hu]
    rfl

/-- Relations that are kept by moving on, by recovery and by the skipping of at-rules. -/
structure Steady (L : List Token → List Token → Prop) : Prop where
  lockstep : Lockstep Kind.Similar L
  behindFirst {ts us : List Token} : L ts us → L (behindFirst ts) (behindFirst us)
  restWithin {ts us : List Token} (h : L ts us) (boundary : Boundary) (brackets : List Bracket) :
    L (boundary.restWithin brackets ts) (boundary.restWithin brackets us)
  atRuleRest {ts us : List Token} (h : L ts us) (depth : Nat) :
    L (atRuleRest depth ts) (atRuleRest depth us)

namespace Steady

open ParseM

variable {L : List Token → List Token → Prop} (hL : Steady L) {p q : Parser}
include hL

/-- Steady lists are in lockstep up to alike tokens. -/
lemma alike : Lockstep Kind.Alike L :=
  hL.lockstep.mono Kind.Similar.alike

/-- Parsers that face each other do so behind a move. -/
lemma advance (h : p.Facing L q) : p.advance.Facing L q.advance := by
  obtain ⟨_, rp⟩ := p.advance_reads
  obtain ⟨_, rq⟩ := q.advance_reads
  refine h.of_reads rp rq ?_
  rw [p.advance_unread, q.advance_unread]
  exact hL.behindFirst h.unread

/-- Parsers that face each other do so behind recovery. -/
lemma resync (h : p.Facing L q) (boundary : Boundary) :
    (p.resync boundary).Facing L (q.resync boundary) :=
  h.resync (hL.restWithin h.unread boundary [])

/-- Parsers that face each other do so behind an at-rule that is skipped. -/
lemma skipAtRule (h : p.Facing L q) : p.skipAtRule.Facing L q.skipAtRule := by
  have ha := hL.advance (h.note (.tried .unknownAtRule) (.tried .unknownAtRule))
  obtain ⟨_, rp⟩ := Parser.skipAtRuleWithin_reads 0 (p.note (.tried .unknownAtRule)).advance
  obtain ⟨_, rq⟩ := Parser.skipAtRuleWithin_reads 0 (q.note (.tried .unknownAtRule)).advance
  refine ha.of_reads rp rq ?_
  rw [Parser.skipAtRule, Parser.skipAtRule, Parser.skipAtRuleWithin_unread,
    Parser.skipAtRuleWithin_unread]
  exact hL.atRuleRest ha.unread 0

/-- Parsers that face each other do so behind what stands between rules. -/
lemma skipFiller (h : p.Facing L q) : p.skipFiller.Facing L q.skipFiller :=
  h.skipWhile hL.lockstep (Kind.Regular.eq ⟨rfl, rfl, rfl⟩)

/-- Parsers that face each other do so behind blanks. -/
lemma skipBlanks (h : p.Facing L q) : p.skipBlanks.Facing L q.skipBlanks :=
  h.skipWhile hL.lockstep (Kind.Regular.eq ⟨rfl, rfl, rfl⟩)

/-- An action that goes by the kind regularly is read alike if it is so for every kind. -/
lemma kind_respects {β : Type} {f : Kind → ParseM β} (hf : Kind.Regular f)
    (h : ∀ k, (f k).Respects L) : (kind >>= f).Respects L :=
  .kind hL.lockstep hf.eq fun k => (h k).at_kind

/-- Both sides move on. -/
lemma advance_respects : ParseM.advance.Respects L :=
  fun _ _ h => .change (hL.advance h)

/-- Both sides skip blanks. -/
lemma skipBlanks_respects : ParseM.skipBlanks.Respects L :=
  fun _ _ h => .change (hL.skipBlanks h)

/-- Both sides skip what stands between rules. -/
lemma skipFiller_respects : (change Parser.skipFiller).Respects L :=
  fun _ _ h => .change (hL.skipFiller h)

/-- Both sides move past a token and the blanks behind it. -/
lemma advanceBlanks_respects : advanceBlanks.Respects L :=
  hL.advance_respects.bind fun _ => hL.skipBlanks_respects

/-- An expected token is read alike if it is told from all others regularly. -/
lemma expect_respects {k : Kind} (hk : Kind.Regular fun l => decide (l = k)) (hne : k ≠ .eof) :
    (expect k).Respects L :=
  .expect hL.lockstep (Kind.Similar.eq_iff hk) hne

/-- What is read alike is so with recovery around it. -/
lemma orResync_respects {α : Type} {K : Kind → Prop} {m : ParseM α}
    {Q : Parser → List Token → α → Parser → Prop} (production : Production) (boundary : Boundary)
    (hm : ∀ p, m.Run K p (Q p)) (h : m.Respects L) :
    (orResync production boundary m).Respects L := by
  intro p q hpq
  exact .orResync production boundary hm (h p q hpq) (fun _ _ h' => h')
    fun _ _ h' => hL.resync h' boundary

end Steady

namespace Grammar

open ParseM

/-! ### Productions outside of selectors and declarations -/

/-- An item in front of the charset moves the window on. -/
lemma leadingItem_advances : Advances leadingItem? :=
  .of_run leadingItem_run

/-- What is left of a stylesheet behind the at-rules in front of it. -/
def rules : ParseM Stylesheet := do
  let charset ← charset?
  let imports ← manySome importItem?
  let rulesets ← manySome rulesetItem?
  return ⟨charset, imports, rulesets⟩

/-- At-rules in front of a stylesheet do not matter to what is read behind them. -/
lemma stylesheet_agrees_behind {E R : Parser → Parser → Prop} {p q p' q' : Parser}
    {us vs : List Unit} (hp : many leadingItem? (p.note (.tried .stylesheet)) = (.ok us, p'))
    (hq : many leadingItem? (q.note (.tried .stylesheet)) = (.ok vs, q'))
    (h : rules.Agrees E p' q' R) : stylesheet.Agrees E p q R := by
  have hp := bind_apply_ok hp fun _ => rules
  have hq := bind_apply_ok hq fun _ => rules
  cases h with
  | ok hp' hq' hr => exact .ok (hp.trans hp') (hq.trans hq') hr
  | error hp' hq' he => exact .error (hp.trans hp') (hq.trans hq') he

section Outer

variable {L : List Token → List Token → Prop} (hL : Steady L)

include hL

/-- A charset is read alike if its rule is. -/
lemma charset_respects (hc : charsetRule.Respects L) : charset?.Respects L := by
  apply Respects.enter
  refine hL.kind_respects ⟨rfl, rfl, rfl⟩ fun k => ?_
  split
  · exact hL.orResync_respects .charset .declaration charsetRule_run hc
  · exact .pure _

/-- The uri of an import is read alike. -/
lemma importUri_respects : importUri.Respects L := by
  refine hL.kind_respects ⟨rfl, rfl, rfl⟩ fun k => ?_
  split
  · exact .pure _
  · exact .pure _
  · exact .unexpected _

/-- A further medium is read alike. -/
lemma furtherMedium_respects : furtherMedium?.Respects L := by
  refine hL.kind_respects ⟨rfl, rfl, rfl⟩ fun k => ?_
  split
  · apply hL.advanceBlanks_respects.bind
    intro _
    apply (ident_respects hL.alike _).bind
    intro medium
    exact hL.skipBlanks_respects.bind_pure
  · exact .pure _

/-- Media are read alike. -/
lemma media_respects : media.Respects L := by
  refine hL.kind_respects ⟨rfl, rfl, rfl⟩ fun k => ?_
  split
  · apply hL.advanceBlanks_respects.bind
    intro _
    exact (Respects.many furtherMedium_advances (furtherMedium_respects hL)).bind_pure
  · exact .pure _

/-- An import is read alike. -/
lemma importRule_respects : importRule.Respects L := by
  apply Respects.enter
  apply (hL.expect_respects ⟨rfl, rfl, rfl⟩ (by nofun)).bind
  intro _
  apply hL.skipBlanks_respects.bind
  intro _
  apply (importUri_respects hL).bind
  intro uri
  apply hL.advanceBlanks_respects.bind
  intro _
  apply (media_respects hL).bind
  intro media
  apply (hL.expect_respects ⟨rfl, rfl, rfl⟩ (by nofun)).bind
  intro _
  exact hL.skipBlanks_respects.bind_pure

/-- An at-rule that is not known is skipped alike. -/
lemma unknownAtRule_respects : unknownAtRule.Respects L :=
  fun _ _ h => .change (hL.skipAtRule h)

/-- An item in front of the charset is read alike. -/
lemma leadingItem_respects : leadingItem?.Respects L := by
  refine hL.kind_respects ⟨rfl, rfl, rfl⟩ fun k => ?_
  split
  · exact (unknownAtRule_respects hL).bind_pure
  · exact .pure _

/-- An item of the imports is read alike. -/
lemma importItem_respects : importItem?.Respects L := by
  apply hL.skipFiller_respects.bind
  intro _
  refine hL.kind_respects ⟨rfl, rfl, rfl⟩ fun k => ?_
  split
  · exact (unknownAtRule_respects hL).bind_pure
  · exact (hL.orResync_respects .importRule .declaration importRule_run
      (importRule_respects hL)).bind_pure
  · exact .pure _

/-- An item of declarations is read alike. -/
lemma declarationItem_respects : declarationItem.Respects L :=
  fun _ _ h => declarationItem_agrees hL.alike (fun _ _ h' => h')
    (fun _ _ h' => hL.resync h' .declaration) h

/-- An item of a block is read alike. -/
lemma blockItem_respects : blockItem?.Respects L := by
  refine hL.kind_respects ⟨rfl, rfl, rfl⟩ fun k => ?_
  split
  · exact .pure _
  · exact .pure _
  · exact hL.advanceBlanks_respects.bind_pure
  · apply (declarationItem_respects hL).bind
    intro item
    exact hL.skipBlanks_respects.bind_pure

/-- A block is left behind its brace or at the end of the input. -/
lemma block_respects : block.Respects L := by
  apply (hL.expect_respects ⟨rfl, rfl, rfl⟩ (by nofun)).bind
  intro _
  apply hL.skipBlanks_respects.bind
  intro _
  apply (Respects.manySome blockItem_advances (blockItem_respects hL)).bind
  intro items
  exact hL.advanceBlanks_respects.bind_pure

/-- A ruleset is read alike. -/
lemma ruleset_respects : ruleset.Respects L := by
  apply Respects.enter
  apply (selector_respects hL.alike).bind
  intro first
  apply (furtherSelectors_respects hL.alike).bind
  intro others
  exact (block_respects hL).bind_pure

/-- An item of the rulesets is read alike. -/
lemma rulesetItem_respects : rulesetItem.Respects L := by
  refine hL.kind_respects ⟨rfl, rfl, rfl⟩ fun k => ?_
  split
  · exact (unknownAtRule_respects hL).bind_pure
  · split
    · exact hL.orResync_respects .ruleset .block ruleset_run (ruleset_respects hL)
    · have hresync : (change fun p => (p.note (.ignoredRuleset p.current)).resync .block).Respects
          L := fun _ _ h => .change (hL.resync (h.note _ _) .block)
      exact hresync.bind_pure

/-- What stands behind the at-rules in front of a stylesheet is read in lockstep if the charset rule
and the rulesets are. -/
lemma rules_agree_of {p q : Parser} {S : Parser → Parser → Prop} (hc : charsetRule.Respects L)
    (hr : ∀ p q, p.Facing L q → (manySome rulesetItem?).Agrees (Parser.Facing L) p q S)
    (h : p.Facing L q) : rules.Agrees (Parser.Facing L) p q S := by
  apply (charset_respects hL hc p q h).bind
  intro charset p q h
  apply (Respects.manySome importItem_advances (importItem_respects hL) p q h).bind
  intro imports p q h
  apply (hr p q h).bind
  intro rulesets p q h
  exact .pure h

/-- A stylesheet is read in lockstep if its charset rule and its rulesets are. -/
lemma stylesheet_agrees_of {p q : Parser} {S : Parser → Parser → Prop}
    (hc : charsetRule.Respects L)
    (hr : ∀ p q, p.Facing L q → (manySome rulesetItem?).Agrees (Parser.Facing L) p q S)
    (h : p.Facing L q) : stylesheet.Agrees (Parser.Facing L) p q S := by
  apply Agrees.bind (R := Parser.Facing L) (.change (h.note _ _))
  intro _ p q h
  apply (Respects.many leadingItem_advances (leadingItem_respects hL) p q h).bind
  intro _ p q h
  exact rules_agree_of hL hc hr h

end Outer

/-- The record of the document does not matter to what is read. -/
lemma document_agrees {p q : Parser} {E R : Parser → Parser → Prop}
    (h : stylesheet.Agrees E (p.note (.reading p.config.source))
      (q.note (.reading q.config.source)) R) : document.Agrees E p q R := by
  cases h with
  | ok hp hq hr => exact .ok hp hq hr
  | error hp hq he => exact .error hp hq he

/-- A document never fails. -/
lemma document_total : document.Total :=
  (Total.change _).bind fun _ => stylesheet_total

end Grammar

/-- Parsers on which an action goes on in lockstep report the same result. -/
lemma ParseM.Agrees.reports {α : Type} {m : ParseM α} {p q : Parser}
    {E R : Parser → Parser → Prop} (h : m.Agrees E p q R) (ht : m.Total) :
    ∃ a, (p.report m).result = .ok a ∧ (q.report m).result = .ok a := by
  obtain ⟨a, p', q', hp, hq, -⟩ := h.of_total ht
  exact ⟨a, Parser.report_of_ok hp, Parser.report_of_ok hq⟩

end CssSyntax
