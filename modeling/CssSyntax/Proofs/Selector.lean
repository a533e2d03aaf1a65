import CssSyntax.Proofs.Run
import CssSyntax.Grammar.Selector

/-!
# Runs of selectors

What the productions for selectors read: the tokens that spell their result and nothing else. A blank
that is no combinator is looked at and stays unread.
-/

namespace CssSyntax.Grammar

open ParseM

/-- What is read as a class spells it. -/
lemma classSelector_run (p : Parser) :
    classSelector.Run Kind.Inner p fun ts s _ => s.Spelled ts := by
  apply Run.enter
  apply (Run.expect_inner rfl _).bind
  intro ds _ q _ hds
  obtain ⟨d, rfl, hd⟩ := hds
  apply (Run.ident_inner _ q).bind_pure
  intro ns name r _ hns
  obtain ⟨t, rfl, ht⟩ := hns
  exact .className hd ht

/-- The operator of a condition is the current token, which is not moved past. -/
lemma attributeOperator_run (p : Parser) :
    attributeOperator.Run Kind.Inner p fun ts operator q =>
      ts = [] ∧ q = p ∧ operator.Spelled p.current := by
  apply Run.kind
  split
  · next h => exact Run.pure ⟨rfl, rfl, .equals h⟩
  · next h => exact Run.pure ⟨rfl, rfl, .includes h⟩
  · next h => exact Run.pure ⟨rfl, rfl, .dashMatch h⟩
  · exact Run.unexpected _

/-- The value of a condition is the current token, which is not moved past. -/
lemma attributeValue_run (p : Parser) :
    attributeValue.Run Kind.Inner p fun ts value q =>
      ts = [] ∧ q = p ∧ AttributeValueSpelled value p.current := by
  apply Run.kind
  split
  · next h => exact Run.pure ⟨rfl, rfl, .ident h⟩
  · next h => exact Run.pure ⟨rfl, rfl, .string h⟩
  · exact Run.unexpected _

/-- Operators of conditions are inner tokens. -/
lemma inner_of_operator {operator : AttributeOperator} {t : Token} (h : operator.Spelled t) :
    t.kind.Inner := by
  cases h with
  | equals h | includes h | dashMatch h => exact .of_eq h rfl

/-- Values of conditions are inner tokens. -/
lemma inner_of_value {value : String} {t : Token} (h : AttributeValueSpelled value t) :
    t.kind.Inner := by
  cases h with
  | ident h | string h => exact .of_eq h rfl

/-- What is read as an attribute condition spells it. -/
lemma attributeSelector_run (p : Parser) :
    attributeSelector.Run Kind.Inner p fun ts test _ => test.Spelled ts := by
  apply Run.enter
  apply (Run.expect_inner rfl _).bind
  intro ls _ q _ hls
  obtain ⟨l, rfl, hl⟩ := hls
  apply (Run.skipBlanks_inner q).bind
  intro bs _ r _ hbs
  obtain ⟨hb, -⟩ := hbs
  apply Run.kind
  split
  · next h =>
    -- the brackets are empty
    apply Run.advance_inner (.of_eq h rfl)
    exact Run.pure (.empty hl hb h)
  · apply (Run.ident_inner _ r).bind
    intro ns name s _ hns
    obtain ⟨t, rfl, ht⟩ := hns
    apply (Run.skipBlanks_inner s).bind
    intro cs _ u _ hcs
    obtain ⟨hc, -⟩ := hcs
    apply Run.kind
    split
    · next h =>
      -- the name stands alone
      apply Run.advance_inner (.of_eq h rfl)
      exact Run.pure (.present hl hb ht hc h)
    · apply (attributeOperator_run u).bind
      intro os operator v _ ho
      obtain ⟨rfl, rfl, ho⟩ := ho
      apply (Run.advanceBlanks_inner (inner_of_operator ho)).bind
      intro ds' _ w _ hds
      obtain ⟨ds, rfl, hd, -⟩ := hds
      apply (attributeValue_run w).bind
      intro vs value x _ hv
      obtain ⟨rfl, rfl, hv⟩ := hv
      apply (Run.advanceBlanks_inner (inner_of_value hv)).bind
      intro es' _ y _ hes
      obtain ⟨es, rfl, he, -⟩ := hes
      apply (Run.expect_inner rfl y).bind_pure
      intro rs _ z _ hrs
      obtain ⟨r', rfl, hr⟩ := hrs
      exact .compared hl hb ht hc ho hd hv he hr

/-- What is read as the argument of a pseudo class spells it. -/
lemma pseudoArgument_run (p : Parser) :
    pseudoArgument.Run Kind.Inner p fun ts value _ => ArgumentSpelled value ts := by
  apply Run.kind
  split
  · exact Run.pure .absent
  · next v h =>
    apply (Run.advanceBlanks_inner (.of_eq h rfl)).bind_pure
    intro ts _ q _ hts
    obtain ⟨bs, rfl, hb, -⟩ := hts
    exact .ident h hb
  · exact Run.unexpected _

/-- What is read as a pseudo class spells it. -/
lemma pseudoSelector_run (p : Parser) :
    pseudoSelector.Run Kind.Inner p fun ts s _ => s.Spelled ts := by
  apply Run.enter
  apply (Run.expect_inner rfl _).bind
  intro cs _ q _ hcs
  obtain ⟨c, rfl, hc⟩ := hcs
  apply Run.kind
  split
  · next name h =>
    apply Run.advance_inner (.of_eq h rfl)
    exact Run.pure (.pseudo hc h)
  · next name h =>
    apply (Run.advanceBlanks_inner (.of_eq h rfl)).bind
    intro fs _ r _ hfs
    obtain ⟨bs, rfl, hb, -⟩ := hfs
    apply (pseudoArgument_run r).bind
    intro ts value s _ hts
    apply (Run.expect_inner rfl s).bind_pure
    intro rs _ u _ hrs
    obtain ⟨t, rfl, ht⟩ := hrs
    exact .call hc h hb hts ht
  · exact Run.unexpected _

/-- What is read as the name of an element spells it, if there is one. -/
lemma elementName_run (p : Parser) :
    elementName?.Run Kind.Inner p fun ts element _ => ElementName.Spelled element ts := by
  apply Run.kind
  split
  · next name h =>
    apply Run.advance_inner (.of_eq h rfl)
    exact Run.pure (.named h)
  · next h =>
    apply Run.advance_inner (.of_eq h rfl)
    exact Run.pure (.universal h)
  · exact Run.pure .absent

end CssSyntax.Grammar

namespace CssSyntax

/-- A condition takes a token. -/
lemma Simple.Spelled.ne_nil {s : Simple} {ts : List Token} (h : s.Spelled ts) : ts ≠ [] := by
  cases h with
  | attr h => cases h <;> exact List.cons_ne_nil _ _
  | _ => exact List.cons_ne_nil _ _

/-- A combinator takes a token. -/
lemma Combinator.Spelled.ne_nil {c : Combinator} {ts : List Token} (h : c.Spelled ts) :
    ts ≠ [] := by
  cases h <;> exact List.cons_ne_nil _ _

namespace Grammar

open ParseM

/-- A condition is read as it is spelled, or nothing is read. -/
lemma condition_run (p : Parser) :
    condition?.Run Kind.Inner p (Step (fun ts s _ => s.Spelled ts) (fun ts _ => ts = [])) := by
  apply Run.kind
  split
  · next name h =>
    apply Run.advance_inner (.of_eq h rfl)
    exact Run.pure ⟨List.cons_ne_nil _ _, .id h⟩
  · apply (classSelector_run p).bind_pure
    intro ts s q _ hs
    exact ⟨hs.ne_nil, hs⟩
  · apply (attributeSelector_run p).bind_pure
    intro ts test q _ ht
    have hs : (Simple.attr test).Spelled ts := .attr ht
    exact ⟨hs.ne_nil, hs⟩
  · apply (pseudoSelector_run p).bind_pure
    intro ts s q _ hs
    exact ⟨hs.ne_nil, hs⟩
  · exact Run.pure rfl

/-- What is read as a compound spells it. -/
lemma compound_run (p : Parser) : compound.Run Kind.Inner p fun ts c _ => c.Spelled ts := by
  apply Run.enter
  apply (elementName_run _).bind
  intro ts element q _ he
  apply (Run.items condition_run q).bind
  intro us conditions r _ hus
  obtain ⟨vs, _, rfl, hvs, rfl⟩ := hus
  split
  · exact Run.unexpected _
  · next h =>
    refine Run.pure ?_
    simp only [List.append_nil]
    exact .intro he hvs h

/-- A blank that is no combinator is looked past and then returned to. -/
lemma combinator_run (p : Parser) :
    combinator?.Run Kind.Inner p fun ts r _ =>
      match r with
      | some c => c.Spelled ts
      | none => ts = [] := by
  apply Run.enter
  generalize p.note (.tried .combinator) = p
  apply Run.kind
  split
  · next blanks h =>
    have hi : p.kind.Inner := .of_eq h rfl
    by_cases hs : p.advance.kind.startsSelector = true
    · apply Run.advance_inner hi
      apply Run.kind
      rw [if_pos hs]
      exact Run.pure (.descendant h)
    · -- What follows the blank is only looked at, so the step that pushes it back is taken by hand.
      obtain ⟨t, source, log, hb, -, -⟩ := Parser.pushBack_advance hi.ne_eof
      refine .ok (a := none) ?_ (.lookAhead hi.ne_eof hb) nofun rfl
      rw [bind_apply_ok (m := advance) (q := p.advance) rfl,
        bind_apply_ok (m := kind) (q := p.advance) rfl, if_neg hs,
        bind_apply_ok (pushBack_apply_ok hb)]
      rfl
  · next h =>
    apply (Run.advanceBlanks_inner (.of_eq h rfl)).bind_pure
    intro ts _ q _ hts
    obtain ⟨bs, rfl, hb, -⟩ := hts
    exact .child h hb
  · next h =>
    apply (Run.advanceBlanks_inner (.of_eq h rfl)).bind_pure
    intro ts _ q _ hts
    obtain ⟨bs, rfl, hb, -⟩ := hts
    exact .sibling h hb
  · exact Run.pure rfl

/-- A further compound is read with its combinator, or nothing is read. -/
lemma joined_run (p : Parser) :
    joined?.Run Kind.Inner p (Step
      (fun ts x _ => Pair Combinator.Spelled Compound.Spelled x ts) (fun ts _ => ts = [])) := by
  apply (combinator_run p).bind
  intro ts r q _ hr
  cases r with
  | none =>
    refine Run.pure ?_
    rw [List.append_nil]
    exact hr
  | some c =>
    apply (compound_run q).bind_pure
    intro us compound r _ hus
    exact ⟨List.append_ne_nil_of_left_ne_nil hr.ne_nil us, .intro hr hus⟩

/-- What is read as a selector spells it. -/
lemma selector_run (p : Parser) : selector.Run Kind.Inner p fun ts s _ => s.Spelled ts := by
  apply Run.enter
  apply (compound_run _).bind
  intro ts first q _ hfirst
  apply (Run.items joined_run q).bind_pure
  intro us others r _ hus
  obtain ⟨vs, _, rfl, hvs, rfl⟩ := hus
  rw [List.append_nil]
  exact .intro hfirst hvs

end Grammar

end CssSyntax
