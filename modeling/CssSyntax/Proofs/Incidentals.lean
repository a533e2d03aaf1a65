import CssSyntax.Proofs.EndOfInput

/-!
# Incidental parts of tokens

The place of a token, the way in which blanks are written and the quotes of a string are nothing that a
tree depends on, except in a charset rule, which asks for a single space and double quotes. `Varied`
relates lists of tokens that differ in no more than that. It is steady, and parsers that face such
lists stay in lockstep also in the charset rule and in the outermost loops.
-/

namespace CssSyntax

/-- Kinds that are the same but for the way in which blanks are written, unless this matters, and for
the quotes of a string, unless these matter. -/
inductive Kind.Varied (blanksMatter quotesMatter : Prop) : Kind → Kind → Prop where
  | refl (k : Kind) : Varied blanksMatter quotesMatter k k
  | blanks (a b : String) :
    ¬ blanksMatter → Varied blanksMatter quotesMatter (.whitespace a) (.whitespace b)
  | quotes (v : String) (a b : Char) :
    ¬ quotesMatter → Varied blanksMatter quotesMatter (.string v a) (.string v b)

namespace Kind.Varied

variable {blanksMatter quotesMatter : Prop} {k l : Kind}

/-- Where less matters, more may be varied. -/
lemma mono {blanksMatter' quotesMatter' : Prop} (h : k.Varied blanksMatter quotesMatter l)
    (hb : blanksMatter' → blanksMatter) (hq : quotesMatter' → quotesMatter) :
    k.Varied blanksMatter' quotesMatter' l := by
  cases h with
  | refl => exact .refl k
  | blanks a b hn => exact .blanks a b (mt hb hn)
  | quotes v a b hn => exact .quotes v a b (mt hq hn)

/-- Kinds that are varied are similar. -/
lemma similar (h : k.Varied blanksMatter quotesMatter l) : k.Similar l := by
  cases h with
  | refl => exact .refl k
  | blanks a b => exact .blanks a b
  | quotes v a b => exact .quotes v a b

/-- What does not depend on the parts that may vary is the same. -/
lemma eq {β : Type} {f : Kind → β}
    (hb : ¬ blanksMatter → (fun blanks => f (.whitespace blanks)) = fun _ => f (.whitespace ""))
    (hq : ¬ quotesMatter → (fun v quote => f (.string v quote)) = fun v _ => f (.string v '"'))
    (k l : Kind) (h : k.Varied blanksMatter quotesMatter l) : f k = f l := by
  cases h with
  | refl => rfl
  | blanks a b hn => exact (congrFun (hb hn) a).trans (congrFun (hb hn) b).symm
  | quotes v a b hn =>
    exact (congrFun (congrFun (hq hn) v) a).trans (congrFun (congrFun (hq hn) v) b).symm

/-- The end of the input is not varied. -/
lemma eof_iff (h : k.Varied blanksMatter quotesMatter l) : k = .eof ↔ l = .eof := by
  have hdecide := eq (f := fun m => decide (m = .eof)) (fun _ => rfl) (fun _ => rfl) k l h
  rwa [decide_eq_decide] at hdecide

/-- Neither blanks nor strings are boundaries or brackets. -/
lemma verdict (h : k.Varied blanksMatter quotesMatter l) (boundary : Boundary)
    (brackets : List Bracket) : boundary.verdict brackets l = boundary.verdict brackets k := by
  cases h with
  | refl => rfl
  | blanks => cases boundary <;> simp [Boundary.verdict]
  | quotes => cases boundary <;> simp [Boundary.verdict]

/-- Kinds that are varied open and close the same brackets. -/
lemma track (h : k.Varied blanksMatter quotesMatter l) (brackets : List Bracket) :
    Bracket.track brackets l = Bracket.track brackets k :=
  (eq (fun _ => rfl) (fun _ => rfl) k l h).symm

end Kind.Varied

/-- Lists of tokens that are the same one by one, but for their places in the document, for the way in
which blanks are written that do not stand directly behind the charset keyword, and for the quotes of
strings that are not the second token behind it. Whether the token that comes next is the first or the
second one behind the charset keyword is said by `first` and `second`. -/
inductive Varied : (first second : Prop) → List Token → List Token → Prop where
  | nil {first second : Prop} : Varied first second [] []
  | cons {first second : Prop} {t u : Token} {ts us : List Token} :
    t.kind.Varied first second u.kind → Varied (t.kind = .atCharset) first ts us →
      Varied first second (t :: ts) (u :: us)

namespace Varied

variable {first second : Prop} {ts us : List Token}

/-- Where less matters for the first two tokens, more may be varied. -/
lemma mono {first' second' : Prop} (h : Varied first second ts us) (hf : first' → first)
    (hs : second' → second) : Varied first' second' ts us := by
  induction h generalizing first' second' with
  | nil => exact .nil
  | cons hv _ ih => exact .cons (hv.mono hf hs) (ih id hf)

/-- What stands in front of the lists matters to their first two tokens only. -/
lemma free (h : Varied first second ts us) : Varied False False ts us :=
  h.mono False.elim False.elim

/-- Lists that are varied freely are in lockstep. -/
lemma lockstep : Lockstep (Kind.Varied False False) (Varied False False) where
  alike h := by
    cases h with
    | cons hv _ => exact hv
  behind h _ := by
    cases h with
    | cons _ h => exact h.free
  eof := .refl .eof

/-- Behind the first token lists may be varied freely. -/
lemma behindFirst (h : Varied first second ts us) :
    Varied False False (behindFirst ts) (CssSyntax.behindFirst us) := by
  cases h with
  | nil => exact .nil
  | cons hv h =>
    cases h with
    | nil => exact (cons hv .nil).free
    | cons hv' h' => exact (cons hv' h').free

/-- Recovery stops at the same place of both lists. -/
lemma restWithin (h : Varied first second ts us) (boundary : Boundary) (brackets : List Bracket) :
    Varied False False (boundary.restWithin brackets ts) (boundary.restWithin brackets us) := by
  induction h generalizing brackets with
  | nil => exact .nil
  | @cons _ _ t u ts us hv h ih =>
    have hfree : Varied False False (t :: ts) (u :: us) := (cons hv h).free
    by_cases ht : t.kind = .eof
    · rw [Boundary.restWithin_of_eof ht, Boundary.restWithin_of_eof (hv.eof_iff.mp ht)]
      exact hfree
    · have hu : u.kind ≠ .eof := mt hv.eof_iff.mpr ht
      have hverdict := hv.verdict boundary brackets
      cases hstep : boundary.verdict brackets t.kind with
      | stopBefore =>
        rw [Boundary.restWithin_of_stopBefore ht hstep,
          Boundary.restWithin_of_stopBefore hu (hverdict.trans hstep)]
        exact hfree
      | stopBehind =>
        rw [Boundary.restWithin_of_stopBehind ht hstep,
          Boundary.restWithin_of_stopBehind hu (hverdict.trans hstep)]
        exact h.free
      | skip =>
        rw [Boundary.restWithin_of_skip ht hstep,
          Boundary.restWithin_of_skip hu (hverdict.trans hstep), hv.track]
        exact ih _

/-- At-rules that are not known end at the same place of both lists. -/
lemma atRuleRest (h : Varied first second ts us) (depth : Nat) :
    Varied False False (atRuleRest depth ts) (CssSyntax.atRuleRest depth us) := by
  induction h generalizing depth with
  | nil => exact .nil
  | @cons _ _ t u ts us hv h ih =>
    have hfree : Varied False False (t :: ts) (u :: us) := (cons hv h).free
    have hrest := h.free
    unfold CssSyntax.atRuleRest
    generalize t.kind = k at hv
    generalize u.kind = l at hv
    cases hv with
    | blanks => exact ih depth
    | quotes => exact ih depth
    | refl =>
      split
      · exact hfree
      · exact ih _
      · split
        · exact hrest
        · exact ih _
      · split
        · exact hrest
        · exact ih _
      · exact ih _

/-- Lists that are varied freely stay so, whatever is read or skipped of them. -/
lemma steady : Steady (Varied False False) where
  lockstep := lockstep.mono fun _ _ h => h.similar
  behindFirst := behindFirst
  restWithin := restWithin
  atRuleRest := atRuleRest

end Varied

namespace Parser.Facing

variable {p q : Parser} {first second : Prop}

/-- Parsers that face varied lists are on varied tokens. -/
lemma kind_varied (h : p.Facing (Varied first second) q) : p.kind.Varied first second q.kind := by
  obtain ⟨ts, hp⟩ := p.unread_eq_cons
  obtain ⟨us, hq⟩ := q.unread_eq_cons
  have hu := h.unread
  rw [hp, hq] at hu
  cases hu with
  | cons hv _ => exact hv

/-- Behind the charset keyword blanks matter, and one token later quotes do. -/
lemma advance_varied (h : p.Facing (Varied first second) q) (hne : p.kind ≠ .eof) :
    p.advance.Facing (Varied (p.kind = .atCharset) first) q.advance := by
  have hq : q.kind ≠ .eof := mt h.kind_varied.eof_iff.mpr hne
  have hu := h.unread
  rw [unread_of_ne_eof hne, unread_of_ne_eof hq] at hu
  cases hu with
  | cons _ h' => exact h.of_reads (.advance_of_ne_eof hne) (.advance_of_ne_eof hq) h'

/-- Where nothing matters, lists are varied freely. -/
lemma free (h : p.Facing (Varied first second) q) : p.Facing (Varied False False) q :=
  ⟨h.unread.free, h.depth, h.limit⟩

end Parser.Facing

namespace ParseM

variable {β : Type} {f : Kind → ParseM β}

/-- A choice by the kind of the current token that does not depend on the parts that may vary. -/
lemma Agrees.kind_varied {first second : Prop} {E S : Parser → Parser → Prop} {p q : Parser}
    (h : p.Facing (Varied first second) q)
    (hb : ¬ first → (fun blanks => f (.whitespace blanks)) = fun _ => f (.whitespace ""))
    (hq : ¬ second → (fun v quote => f (.string v quote)) = fun v _ => f (.string v '"'))
    (hk : (f p.kind).Agrees E p q S) : (ParseM.kind >>= f).Agrees E p q S :=
  .kind_of_eq (Kind.Varied.eq hb hq _ _ h.kind_varied).symm hk

/-- An action that goes by the kind is read alike if blanks and quotes do not matter to it. -/
lemma Respects.kind_varied
    (hb : (fun blanks => f (.whitespace blanks)) = fun _ => f (.whitespace ""))
    (hq : (fun v quote => f (.string v quote)) = fun v _ => f (.string v '"'))
    (h : ∀ k, (f k).Respects (Varied False False)) :
    (ParseM.kind >>= f).Respects (Varied False False) :=
  fun p q hpq => .kind_varied hpq (fun _ => hb) (fun _ => hq) (h p.kind p q hpq)

end ParseM

namespace Grammar

open ParseM

variable {p q : Parser}

/-- In the second place behind the charset keyword quotes matter. -/
lemma doubleQuoted_varied {first : Prop} (h : p.Facing (Varied first True) q) :
    doubleQuoted.Agrees (Parser.Facing (Varied False False)) p q
      (Parser.Facing (Varied False False)) := by
  refine .kind_varied h (fun _ => rfl) (absurd trivial) ?_
  split
  · split
    · exact Varied.steady.advance_respects.bind_pure p q h.free
    · exact .unexpected h.free
  · exact .unexpected h.free

/-- A charset rule is read alike, since its keyword fixes the blank and the quotes behind it. -/
lemma charsetRule_varied : charsetRule.Respects (Varied False False) := by
  intro p q h
  have hkeyword : (expect .atCharset).Agrees (Parser.Facing (Varied False False)) p q
      (Parser.Facing (Varied True False)) := by
    refine .kind_varied h (fun _ => rfl) (fun _ => rfl) ?_
    split
    · next hk =>
      have ha := h.advance_varied (by rw [hk]; nofun)
      exact .change ⟨ha.unread.mono (fun _ => hk) id, ha.depth, ha.limit⟩
    · exact .unexpected h
  apply hkeyword.bind
  intro _ p q h
  refine .kind_varied h (absurd trivial) (fun _ => rfl) ?_
  split
  · next hk =>
    apply Agrees.bind (.change (h.advance_varied (by rw [hk]; nofun)))
    intro _ p q h
    apply (doubleQuoted_varied h).bind
    intro name p q h
    exact (Varied.steady.expect_respects ⟨rfl, rfl, rfl⟩ (by nofun)).bind_pure p q h
  · exact .unexpected h.free

/-- An item of the rulesets is read alike. -/
lemma nextRuleset_varied : rulesetItem?.Respects (Varied False False) := by
  refine .kind_varied rfl rfl fun k => ?_
  split
  · exact .pure _
  · apply (rulesetItem_respects Varied.steady).bind
    intro item
    exact Varied.steady.skipFiller_respects.bind_pure

/-- An item of a list is read alike. -/
lemma listItem_varied : listItem?.Respects (Varied False False) := by
  apply Varied.steady.skipBlanks_respects.bind
  intro _
  refine .kind_varied rfl rfl fun k => ?_
  split
  · exact .pure _
  · exact Varied.steady.advance_respects.bind_pure
  · exact Varied.steady.advance_respects.bind_pure
  · exact (declarationItem_respects Varied.steady).bind_pure

end Grammar

/-- Parsers of such lists have such lists in front of them. -/
lemma Varied.unread {first second : Prop} {ts us : List Token} (h : Varied first second ts us) :
    Varied first second (Source.tokens ts).unread (Source.tokens us).unread := by
  induction h with
  | nil =>
    rw [Source.unread_nil]
    exact .cons (.refl _) .nil
  | @cons _ _ t u ts us hv _ ih =>
    rw [Source.unread_cons, Source.unread_cons]
    by_cases ht : t.kind = .eof
    · rw [if_pos ht, if_pos (hv.eof_iff.mp ht)]
      exact .cons hv .nil
    · rw [if_neg ht, if_neg (mt hv.eof_iff.mpr ht)]
      exact .cons hv ih

open Grammar ParseM in
/-- What is read depends neither on the places of tokens, on how blanks are written and on the quotes of
strings, except in a charset rule, nor on the name and the place of the document. -/
theorem incidentals_do_not_matter (config config' : Config) {ts us : List Token}
    (h : Varied False False ts us) (hdepth : config.maxFunctionDepth = config'.maxFunctionDepth) :
    (∃ s, (parseSource (.tokens ts) config).result = .ok s ∧
      (parseSource (.tokens us) config').result = .ok s) ∧
    ∃ ds, ((Parser.ofSource (.tokens ts) config).report declarations).result = .ok ds ∧
      ((Parser.ofSource (.tokens us) config').report declarations).result = .ok ds := by
  have hf : (Parser.ofSource (.tokens ts) config).Facing (Varied False False)
      (Parser.ofSource (.tokens us) config') := by
    refine ⟨?_, rfl, hdepth⟩
    rw [Parser.unread_ofSource, Parser.unread_ofSource]
    exact h.unread
  have hrulesets := Respects.manySome nextRuleset_advances nextRuleset_varied
  have hitems := Respects.manySome listItem_advances listItem_varied
  have hdeclarations : declarations.Respects (Varied False False) := .enter hitems
  exact ⟨(document_agrees (stylesheet_agrees_of Varied.steady charsetRule_varied hrulesets
      (hf.note _ _))).reports document_total,
    (hdeclarations _ _ hf).reports declarations_total⟩

/-- The tokens of `@charset "c";@import "u";a b{}`, where the blank between `a` and `b`, the quotes of `u`
and the places are left open. -/
def importSheet (blank : String) (quote : Char) (place : Location) : List Token :=
  [.atCharset, .whitespace " ", .string "c" '"', .semicolon, .atImport, .string "u" quote, .semicolon,
    .ident "a", .whitespace blank, .ident "b", .lcurly, .rcurly].map (Token.mk · place)

/-- The sample is varied freely by its blank, its quotes and its places. -/
lemma importSheet_varied (blank blank' : String) (quote quote' : Char) (place place' : Location) :
    Varied False False (importSheet blank quote place) (importSheet blank' quote' place') :=
  .cons (.refl .atCharset) <| .cons (.refl (.whitespace " ")) <| .cons (.refl (.string "c" '"')) <|
    .cons (.refl .semicolon) <| .cons (.refl .atImport) <| .cons (.quotes "u" _ _ nofun) <|
    .cons (.refl .semicolon) <| .cons (.refl (.ident "a")) <| .cons (.blanks _ _ nofun) <|
    .cons (.refl (.ident "b")) <| .cons (.refl .lcurly) <| .cons (.refl .rcurly) .nil

/-- A stylesheet with a charset rule, an import and a ruleset is the same with other blanks and quotes at
other places. -/
theorem incidentals_do_not_matter_importSheet :
    Varied False False (importSheet " " '"' .origin) (importSheet "\n\t" '\'' ⟨3, 5, 40⟩) ∧
    ∃ s, (parseSource (.tokens (importSheet " " '"' .origin)) {}).result = .ok s ∧
      (parseSource (.tokens (importSheet "\n\t" '\'' ⟨3, 5, 40⟩))
        { source := some "sheet", start := ⟨3, 1, 36⟩ }).result = .ok s ∧
      (s.charset, s.imports, s.rulesets.length) = (some "c", [⟨"u", []⟩], 1) := by
  have hvaried := importSheet_varied " " "\n\t" '"' '\'' .origin ⟨3, 5, 40⟩
  obtain ⟨⟨s, hs, hs'⟩, -⟩ := incidentals_do_not_matter {}
    { source := some "sheet", start := ⟨3, 1, 36⟩ } hvaried rfl
  refine ⟨hvaried, s, hs, hs', ?_⟩
  exact eq_of_toOption_map (fun s => (s.charset, s.imports, s.rulesets.length))
    (some "c", [⟨"u", []⟩], 1) hs (by decide +kernel)

end CssSyntax
