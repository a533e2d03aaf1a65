import CssSyntax.Proofs.Completeness
import CssSyntax.Proofs.Soundness

/-!
# The limit of functions inside functions

A production that gives a result under one limit does the same under every higher limit, step by step
(`ParseM.LiftsTo`): the limit is asked for only where a function starts, and there it makes the
production fail or has no effect. Completeness tells when the lower limit suffices, so the limit is
exactly the depth of the values that are read (`function_limit_exact`).

No production changes how many functions a parser is inside of, whatever comes of it.
-/

namespace CssSyntax

/-- A parser with another limit for functions inside functions. -/
def Parser.limited (p : Parser) (limit : Nat) : Parser :=
  { p with config.maxFunctionDepth := limit }

namespace Parser

variable {p : Parser} {limit : Nat}

/-- Giving a parser the limit that it has changes nothing. -/
lemma limited_self (h : p.config.maxFunctionDepth = limit) : p.limited limit = p := by
  subst h
  rfl

/-- A move does not depend on the limit. -/
lemma advance_limited : (p.limited limit).advance = p.advance.limited limit := by
  cases hb : p.pushedBack with
  | some t =>
    rw [advance_of_pushedBack hb, advance_of_pushedBack (p := p.limited limit) hb]
    rfl
  | none =>
    by_cases hk : p.kind = .eof
    · rw [advance_of_eof hb hk, advance_of_eof (p := p.limited limit) hb hk]
    · rw [advance_of_ne_eof hb hk, advance_of_ne_eof (p := p.limited limit) hb hk]
      rfl

/-- Skipping does not depend on the limit. -/
lemma skipWhile_limited (skips : Kind → Bool) (stops : skips .eof = false) :
    (p.limited limit).skipWhile skips stops = (p.skipWhile skips stops).limited limit := by
  fun_induction skipWhile skips stops p with
  | case1 p h _ _ ih =>
    have h' : skips (p.limited limit).kind = true := h
    have ha : (p.limited limit).advance = p.advance.limited limit := advance_limited
    rw [skipWhile, dif_pos h']
    dsimp only
    rw [ha, ih]
  | case2 p h => exact skipWhile_of_stop (Bool.eq_false_iff.mpr h)

end Parser

namespace ParseM

variable {α β : Type} {m n : Nat}

/-- What comes of `f` on a parser under the limit `m` comes of `g` under the limit `n`. -/
def LiftsTo (m n : Nat) (f g : ParseM α) : Prop :=
  ∀ p a q, p.config.maxFunctionDepth = m → f p = (.ok a, q) →
    q.config.maxFunctionDepth = m ∧ g (p.limited n) = (.ok a, q.limited n)

namespace LiftsTo

/-- A result that is given at once lifts. -/
lemma pure (a : α) : LiftsTo m n (Pure.pure a) (Pure.pure a) := by
  intro p b q hp he
  cases he
  exact ⟨hp, rfl⟩

/-- Actions that lift do so one after the other. -/
lemma bind {f g : ParseM α} {f' g' : α → ParseM β} (h : LiftsTo m n f g)
    (h' : ∀ a, LiftsTo m n (f' a) (g' a)) : LiftsTo m n (f >>= f') (g >>= g') := by
  intro p b r hp he
  rcases hf : f p with ⟨_ | a, q⟩
  · rw [bind_apply_error hf] at he
    cases he
  · rw [bind_apply_ok hf] at he
    obtain ⟨hq, hg⟩ := h p a q hp hf
    rw [bind_apply_ok hg]
    exact h' a q b r hq he

/-- A result may be changed behind an action that lifts. -/
lemma bind_pure {f g : ParseM α} (h : LiftsTo m n f g) (c : α → β) :
    LiftsTo m n (f >>= fun a => Pure.pure (c a)) (g >>= fun a => Pure.pure (c a)) :=
  h.bind fun a => .pure (c a)

/-- Actions that go by the kind lift if they do so for every kind. -/
lemma kind {f g : Kind → ParseM β} (h : ∀ k, LiftsTo m n (f k) (g k)) :
    LiftsTo m n (ParseM.kind >>= f) (ParseM.kind >>= g) :=
  fun p => h p.kind p

/-- Actions that look at the parser lift if they do so on the parser with the other limit. -/
lemma window {f g : Parser → ParseM β}
    (h : ∀ p, p.config.maxFunctionDepth = m → LiftsTo m n (f p) (g (p.limited n))) :
    LiftsTo m n (ParseM.window >>= f) (ParseM.window >>= g) :=
  fun p a q hp => h p hp p a q hp

/-- An action that fails lifts to any other. -/
lemma of_fails {f : ParseM α} (h : ∀ p a q, f p ≠ (.ok a, q)) (g : ParseM α) : LiftsTo m n f g :=
  fun p a q _ he => absurd he (h p a q)

/-- A failure lifts to anything. -/
lemma unexpected (expected : String) (g : ParseM α) :
    LiftsTo m n (ParseM.unexpected expected) g := by
  refine of_fails ?_ g
  intro p a q he
  cases he

/-- A change lifts if it does not depend on the limit. -/
lemma change {c : Parser → Parser} (hconfig : ∀ p, (c p).config = p.config)
    (h : ∀ p, c (p.limited n) = (c p).limited n) :
    LiftsTo m n (ParseM.change c) (ParseM.change c) := by
  intro p a q hp he
  cases he
  refine ⟨(congrArg Config.maxFunctionDepth (hconfig p)).trans hp, ?_⟩
  rw [← h]
  rfl

/-- The note that a production is tried lifts. -/
lemma enter (production : Production) :
    LiftsTo m n (ParseM.enter production) (ParseM.enter production) :=
  change (fun _ => rfl) fun _ => rfl

/-- Moving on lifts. -/
lemma advance : LiftsTo m n ParseM.advance ParseM.advance :=
  change (fun p => p.advance_settings.1) fun _ => Parser.advance_limited

/-- Skipping blanks lifts. -/
lemma skipBlanks : LiftsTo m n ParseM.skipBlanks ParseM.skipBlanks := by
  refine change (fun p => ?_) fun _ => Parser.skipWhile_limited _ _
  obtain ⟨_, hr, -⟩ := p.skipWhile_reads Kind.isWhitespace rfl
  exact hr.settings.1

/-- Moving past a token and the blanks behind it lifts. -/
lemma advanceBlanks : LiftsTo m n ParseM.advanceBlanks ParseM.advanceBlanks :=
  advance.bind fun _ => skipBlanks

/-- An expected token lifts. -/
lemma expect (k : Kind) : LiftsTo m n (ParseM.expect k) (ParseM.expect k) := by
  apply kind
  intro l
  split
  · exact advance
  · exact unexpected _ _

/-- A repetition lifts step by step. -/
lemma many {f g : ParseM (Option α)} (hf : Advances f) (hg : Advances g) (h : LiftsTo m n f g) :
    LiftsTo m n (ParseM.many f) (ParseM.many g) := by
  intro p as s hp he
  induction hn : p.ahead using Nat.strongRecOn generalizing p as with
  | ind k ih =>
    rcases hstep : f p with ⟨_ | _ | a, q⟩
    · rw [many_of_error hstep] at he
      cases he
    · rw [many_of_none hstep] at he
      cases he
      obtain ⟨hq, hstep'⟩ := h p none s hp hstep
      exact ⟨hq, many_of_none hstep'⟩
    · obtain ⟨hq, hstep'⟩ := h p (some a) q hp hstep
      have hlt := hf p a q hstep
      rw [many_of_some hstep hlt] at he
      rw [many_of_some hstep' (hg _ a _ hstep')]
      rcases hrest : ParseM.many f q with ⟨_ | bs, r⟩
      · rw [hrest] at he
        cases he
      · rw [hrest] at he
        cases he
        obtain ⟨hr, hrest'⟩ := ih q.ahead (hn ▸ hlt) q bs hq hrest rfl
        rw [hrest']
        exact ⟨hr, rfl⟩

end LiftsTo

/-- An action that leaves a parser inside of as many functions as before, whatever comes of it. -/
def KeepsDepth (m : ParseM α) : Prop :=
  ∀ p, (m p).2.depth = p.depth

/-- What is read keeps the depth, whatever comes of it. -/
lemma KeepsDepth.of_run {K : Kind → Prop} {m : ParseM α}
    {Q : Parser → List Token → α → Parser → Prop} (h : ∀ p, m.Run K p (Q p)) : m.KeepsDepth := by
  intro p
  cases h p with
  | ok he hr | error he hr =>
    rw [he]
    exact hr.settings.2

/-- A change that reads keeps the depth. -/
lemma KeepsDepth.of_reads {c : Parser → Parser} (h : ∀ p : Parser, ∃ ts, p.Reads ts (c p)) :
    (ParseM.change c).KeepsDepth := by
  intro p
  obtain ⟨ts, hr⟩ := h p
  exact hr.settings.2

end ParseM

namespace Grammar

open ParseM

variable {m n : Nat}

/-- A sign lifts. -/
lemma sign_lifts : LiftsTo m n sign? sign? := by
  apply LiftsTo.kind
  intro k
  split
  · exact LiftsTo.advance.bind_pure _
  · exact LiftsTo.advance.bind_pure _
  · exact .pure none

/-- A term lifts if its functions do. -/
lemma termWith_lifts {f g : ParseM Function} (h : LiftsTo m n f g) :
    LiftsTo m n (termWith f) (termWith g) := by
  apply (LiftsTo.enter .term).bind
  intro _
  apply sign_lifts.bind
  intro sign
  apply LiftsTo.kind
  intro k
  split
  · exact h.bind_pure _
  · split
    · exact LiftsTo.advanceBlanks.bind_pure _
    · exact .unexpected _ _

/-- An operator lifts. -/
lemma operator_lifts : LiftsTo m n operator? operator? := by
  apply LiftsTo.kind
  intro k
  split
  · exact LiftsTo.advanceBlanks.bind_pure _
  · exact LiftsTo.advanceBlanks.bind_pure _
  · exact .pure _

/-- A further term lifts if terms do. -/
lemma operand_lifts {f g : ParseM Term} (h : LiftsTo m n f g) :
    LiftsTo m n (operand? f) (operand? g) := by
  apply operator_lifts.bind
  intro operator
  cases operator with
  | none => exact .pure none
  | some op => exact h.bind_pure _

/-- An expression lifts if its terms do. -/
lemma expressionWith_lifts {f g : ParseM Term} (hf : Advances (operand? f))
    (hg : Advances (operand? g)) (h : LiftsTo m n f g) :
    LiftsTo m n (expressionWith f) (expressionWith g) := by
  apply (LiftsTo.enter .expression).bind
  intro _
  apply h.bind
  intro first
  exact (LiftsTo.many hf hg (operand_lifts h)).bind_pure _

/-- An action that is run one level deeper lifts if it does so there. -/
lemma nested_lifts {α : Type} {f g : ParseM α} (h : LiftsTo m n f g) :
    LiftsTo m n (nested f) (nested g) := by
  intro p a q hp he
  rcases hf : f { p with depth := p.depth + 1 } with ⟨_ | b, r⟩
  · rw [nested_apply hf] at he
    cases he
  · rw [nested_apply hf] at he
    cases he
    obtain ⟨hr, hg⟩ := h { p with depth := p.depth + 1 } a r hp hf
    exact ⟨hr, nested_apply (p := p.limited n) hg⟩

/-- A function that may be entered under one limit may be entered under every higher one. -/
lemma functionWith_lifts (hmn : m ≤ n) {f g : ParseM Expression} (h : LiftsTo m n f g) :
    LiftsTo m n (functionWith f) (functionWith g) := by
  apply (LiftsTo.enter .function).bind
  intro _
  apply LiftsTo.window
  intro p hp
  by_cases hd : p.depth ≥ p.config.maxFunctionDepth
  · -- a call that fails under the lower limit says nothing of the higher one
    rw [if_pos hd]
    refine .of_fails ?_ _
    intro p a q he
    cases he
  · have hd' : ¬ (p.limited n).depth ≥ (p.limited n).config.maxFunctionDepth := by
      have hlt : p.depth < m := hp ▸ Nat.lt_of_not_le hd
      exact Nat.not_le_of_lt (Nat.lt_of_lt_of_le hlt hmn)
    rw [if_neg hd, if_neg hd']
    apply nested_lifts
    apply LiftsTo.kind
    intro k
    split
    · apply LiftsTo.advanceBlanks.bind
      intro _
      apply LiftsTo.kind
      intro k
      split
      · exact .unexpected _ _
      · apply h.bind
        intro arguments
        apply (LiftsTo.expect .rparen).bind
        intro _
        exact LiftsTo.skipBlanks.bind_pure _
    · exact .unexpected _ _

/-- A function lifts to a higher limit if no fewer levels are left inside it. -/
lemma functionWithin_lifts (hmn : m ≤ n) {k l : Nat} (hkl : k ≤ l) :
    LiftsTo m n (functionWithin k) (functionWithin l) := by
  induction k generalizing l with
  | zero =>
    have hfails : ∀ g, LiftsTo m n (tooDeep : ParseM Expression) g := by
      apply LiftsTo.of_fails
      intro p a q he
      cases he
    cases l with
    | zero => exact functionWith_lifts hmn (hfails _)
    | succ l => exact functionWith_lifts hmn (hfails _)
  | succ k ih =>
    obtain ⟨l, rfl⟩ : ∃ l', l = l' + 1 := Nat.exists_eq_succ_of_ne_zero (Nat.ne_zero_of_lt hkl)
    have hadv : ∀ j, Advances (operand? (termWith (functionWithin j))) :=
      fun j => .of_run (operand_run (termWith_run (functionWithin_run j)))
    have hterm := termWith_lifts (ih (Nat.le_of_succ_le_succ hkl))
    exact functionWith_lifts hmn (expressionWith_lifts (hadv k) (hadv l) hterm)

/-- A function lifts to a higher limit. -/
lemma function_lifts (hmn : m ≤ n) : LiftsTo m n function function := by
  apply LiftsTo.window
  intro p hp
  apply functionWithin_lifts hmn
  rw [hp]
  exact Nat.sub_le_sub_right hmn p.depth

/-- An expression lifts to a higher limit. -/
lemma expression_lifts (hmn : m ≤ n) : LiftsTo m n expression expression :=
  expressionWith_lifts operand_advances operand_advances (termWith_lifts (function_lifts hmn))

/-- A value that is read is not deeper than the levels that are left, and if it is no deeper than those
of a lower limit, it is read under that limit too. -/
lemma expression_lowers {p q : Parser} {e : Expression} (hmn : m ≤ n)
    (he : expression (p.limited n) = (.ok e, q)) (hd : e.depth ≤ (p.limited m).levels) :
    expression (p.limited m) = (.ok e, q.limited m) := by
  obtain ⟨ts, hr, -, hts, -, hc⟩ := (expression_run _).of_ok he
  obtain ⟨us, hq⟩ := q.unread_eq_cons
  have hu : (p.limited m).unread = ts ++ q.current :: us := hq ▸ hr.unread
  obtain ⟨_, r, hlow, -, -⟩ :=
    acceptsExpressions_all _ _ e ts us q.current ⟨hts, hd⟩ (Nat.le_refl _) hc hu
  -- what is read under the lower limit is what was read under the higher one
  obtain ⟨hlimit, hhigh⟩ := expression_lifts hmn (p.limited m) e r rfl hlow
  have hr : r.limited n = q := (Prod.mk.inj (hhigh.symm.trans he)).2
  rw [hlow, ← hr]
  exact congrArg (Prod.mk _) (Parser.limited_self hlimit).symm

/-- Skipping an at-rule keeps the depth. -/
lemma unknownAtRule_keepsDepth : unknownAtRule.KeepsDepth := by
  apply KeepsDepth.of_reads
  intro p
  obtain ⟨ts, hr⟩ := (p.note (.tried .unknownAtRule)).advance_reads
  obtain ⟨us, hr'⟩ := Parser.skipAtRuleWithin_reads 0 (p.note (.tried .unknownAtRule)).advance
  exact ⟨ts ++ us, (hr.trans hr').note_trans⟩

/-- Recovery keeps the depth. -/
lemma resync_keepsDepth (boundary : Boundary) : (change (Parser.resync boundary)).KeepsDepth := by
  apply KeepsDepth.of_reads
  intro p
  obtain ⟨ts, hr, -⟩ := Parser.resync_reads boundary p
  exact ⟨ts, hr⟩

/-- The limit of functions inside functions is exact: outside of all functions, a value is read under
a limit `m` if and only if its depth is at most `m` and it is read under a higher limit. The parsers
stop with the same window then, and have taken the same tokens. And no production leaks a level: on
every parser, whether it gives a result or fails, it ends inside of as many functions as it began. -/
theorem function_limit_exact (p : Parser) (m n : Nat) (hmn : m ≤ n) (hp : p.depth = 0) :
    (∀ e q, expression (p.limited m) = (.ok e, q) →
      e.depth ≤ m ∧ expression (p.limited n) = (.ok e, q.limited n)) ∧
    (∀ e q, expression (p.limited n) = (.ok e, q) → e.depth ≤ m →
      expression (p.limited m) = (.ok e, q.limited m)) ∧
    (expression.KeepsDepth ∧ term.KeepsDepth ∧ function.KeepsDepth ∧ property.KeepsDepth ∧
      declaration.KeepsDepth ∧ declarations.KeepsDepth ∧ block.KeepsDepth) ∧
    (classSelector.KeepsDepth ∧ attributeSelector.KeepsDepth ∧ pseudoSelector.KeepsDepth ∧
      compound.KeepsDepth ∧ combinator?.KeepsDepth ∧ selector.KeepsDepth ∧ ruleset.KeepsDepth) ∧
    (charset?.KeepsDepth ∧ charsetRule.KeepsDepth ∧ importRule.KeepsDepth ∧
      unknownAtRule.KeepsDepth ∧ stylesheet.KeepsDepth ∧ document.KeepsDepth) ∧
    ∀ boundary, (change (Parser.resync boundary)).KeepsDepth := by
  have hlevels : (p.limited m).levels = m := by
    show m - p.depth = m
    rw [hp, Nat.sub_zero]
  refine ⟨?_, ?_, ?_, ?_, ?_, resync_keepsDepth⟩
  · intro e q he
    obtain ⟨ts, -, -, -, hd, -⟩ := (expression_run _).of_ok he
    exact ⟨hlevels ▸ hd, (expression_lifts hmn _ e q rfl he).2⟩
  · intro e q he hd
    exact expression_lowers hmn he (hlevels.symm ▸ hd)
  · exact ⟨.of_run expression_run, .of_run term_run, .of_run function_run, .of_run property_run,
      .of_run declaration_run, .of_run declarations_run, .of_run block_run⟩
  · exact ⟨.of_run classSelector_run, .of_run attributeSelector_run, .of_run pseudoSelector_run,
      .of_run compound_run, .of_run combinator_run, .of_run selector_run, .of_run ruleset_run⟩
  · refine ⟨.of_run charset_run, .of_run charsetRule_run, .of_run importRule_run,
      unknownAtRule_keepsDepth, .of_run stylesheet_run, ?_⟩
    exact fun p => KeepsDepth.of_run stylesheet_run (p.note _)

/-- What comes of `-f( x, g(y) )/ z` under a limit. -/
def nestedCallsUnder (limit : Nat) : Except ParseError Expression × Parser :=
  expression (nestedCalls.limited limit)

/-- The value of `nestedCalls`. -/
def nestedValue : Expression :=
  ⟨[outerCall.toTerm (some .minus), .value none (.ident "z")], [.slash]⟩

/-- A value that is two levels deep is read under the limits 2 and 3 alike, and not under the limit
1. -/
theorem function_limit_exact_nestedCalls :
    (2 ≤ 3 ∧ nestedCalls.depth = 0) ∧
    (nestedCallsUnder 2).1.toOption = some nestedValue ∧
    nestedValue.depth ≤ 2 ∧
    nestedCallsUnder 3 = (.ok nestedValue, (nestedCallsUnder 2).2.limited 3) ∧
    nestedCallsUnder 2 = (.ok nestedValue, (nestedCallsUnder 3).2.limited 2) ∧
    (nestedCallsUnder 1).1.toOption = none := by
  obtain ⟨hlift, hlower, -⟩ := function_limit_exact nestedCalls 2 3 (by decide) rfl
  have hlow : (nestedCallsUnder 2).1.toOption = some nestedValue := by decide +kernel
  have hhigh : (nestedCallsUnder 3).1.toOption = some nestedValue := by decide +kernel
  obtain ⟨hdepth, hlifted⟩ := hlift nestedValue _ (apply_of_toOption hlow)
  refine ⟨⟨by decide, rfl⟩, hlow, hdepth, hlifted, ?_, by decide +kernel⟩
  exact hlower nestedValue _ (apply_of_toOption hhigh) hdepth

end Grammar

end CssSyntax
