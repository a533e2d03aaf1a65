import CssSyntax.Proofs.Soundness
import CssSyntax.Proofs.Totality

/-!
# Failures

Where a production stands when it fails. The cause points at a token that was not moved past, and
recovery starts from this token (`Grammar.failures_in_place`).

A ruleset and an import end with tokens that delimit them. They can fail in front of these tokens
only, so whatever ends the construct is left for recovery to find (`ParseM.FailsInside`).
-/

namespace CssSyntax

namespace ParseM

variable {α β : Type} {m : ParseM α} {p : Parser}

/-- An action that fails inside of a construct if it fails: it has not moved past what can end one. -/
def FailsInside (m : ParseM α) (p : Parser) : Prop :=
  ∀ ⦃e q⦄, m p = (.error e, q) → ∃ ts, p.Reads ts q ∧ ∀ t ∈ ts, t.kind.Inner

namespace FailsInside

/-- A run over inner tokens fails inside of the construct. -/
lemma of_run {P : List Token → α → Parser → Prop} (h : m.Run Kind.Inner p P) :
    m.FailsInside p := by
  intro e q he
  obtain ⟨ts, hr, hk, -⟩ := h.of_error he
  exact ⟨ts, hr, hk⟩

/-- A token that is expected and missing is not moved past. -/
lemma expect (k : Kind) (p : Parser) : (ParseM.expect k).FailsInside p := by
  intro e q he
  rw [expect_error he]
  exact ⟨[], .refl p, nofun⟩

/-- Noting that a production is tried moves past nothing. -/
lemma enter {production : Production} {f : Unit → ParseM β}
    (h : (f ()).FailsInside (p.note (.tried production))) :
    (ParseM.enter production >>= f).FailsInside p := by
  intro e q he
  obtain ⟨ts, hr, hk⟩ := h he
  exact ⟨ts, hr.note_trans, hk⟩

/-- Two actions fail inside if the first runs over inner tokens and the second fails inside behind
it. -/
lemma bind {P : List Token → α → Parser → Prop} {f : α → ParseM β} (hm : m.Run Kind.Inner p P)
    (hf : ∀ ts a q, P ts a q → (f a).FailsInside q) : (m >>= f).FailsInside p := by
  intro e r he
  obtain he | ⟨a, q, ha, he⟩ := bind_error he
  · exact of_run hm he
  · obtain ⟨ts, hr, hk, hp⟩ := hm.of_ok ha
    obtain ⟨us, hr', hk'⟩ := hf ts a q hp he
    exact ⟨ts ++ us, hr.trans hr', List.forall_mem_append.mpr ⟨hk, hk'⟩⟩

/-- What cannot fail may move past anything. -/
lemma bind_total {f : α → ParseM β} (hm : m.FailsInside p) (hf : ∀ a, (f a).Total) :
    (m >>= f).FailsInside p := by
  intro e r he
  obtain he | ⟨a, q, -, he⟩ := bind_error he
  · exact hm he
  · exact absurd he (hf a).ne_error

end FailsInside

end ParseM

/-- A cause that is met between `p` and `q`. It points at the token that `q` stands on, this token is
the next one of the stream still, and nothing in front of it ends a declaration, delimits a block or
ends the input. -/
def ParseError.MetBetween (e : ParseError) (p q : Parser) : Prop :=
  e.PointsAt q ∧ ∃ ts, p.stream = ts ++ₛ q.stream ∧ ∀ t ∈ ts, t.kind.Inner

namespace ParseM

variable {α : Type} {m : ParseM α}

/-- An action whose failures are met where the parser is left. -/
def FailsInPlace (m : ParseM α) : Prop :=
  ∀ p e q, m p = (.error e, q) → e.MetBetween p q

/-- A run over inner tokens fails in place. -/
lemma FailsInPlace.of_run {P : Parser → List Token → α → Parser → Prop}
    (h : ∀ p, m.Run Kind.Inner p (P p)) : m.FailsInPlace := by
  intro p e q he
  obtain ⟨ts, hr, hk, hp⟩ := (h p).of_error he
  exact ⟨hp, ts, hr.stream, hk⟩

/-- A run that fails inside of the construct fails in place. -/
lemma FailsInPlace.of_inside {K : Kind → Prop} {P : Parser → List Token → α → Parser → Prop}
    (h : ∀ p, m.Run K p (P p)) (hm : ∀ p, m.FailsInside p) : m.FailsInPlace := by
  intro p e q he
  obtain ⟨_, -, -, hp⟩ := (h p).of_error he
  obtain ⟨ts, hr, hk⟩ := hm p he
  exact ⟨hp, ts, hr.stream, hk⟩

end ParseM

namespace Grammar

open ParseM

/-- A block can only break in front of its brace. -/
lemma block_error {p : Parser} : block.FailsInside p := by
  apply (FailsInside.expect .lcurly p).bind_total
  intro _
  apply (Total.change _).bind
  intro _
  apply blockItem_total.manySome.bind
  intro items
  exact Total.advanceBlanks.bind fun _ => .pure items

/-- A ruleset breaks before any of its block is read. -/
lemma ruleset_error {p : Parser} : ruleset.FailsInside p := by
  apply FailsInside.enter
  apply FailsInside.bind (selector_run _)
  intro _ first q _
  apply FailsInside.bind (Run.items furtherSelector_run q)
  intro _ others r _
  exact block_error.bind_total fun _ => .pure _

/-- An import breaks before its `;` is read. -/
lemma importRule_error {p : Parser} : importRule.FailsInside p := by
  apply FailsInside.enter
  apply FailsInside.bind (Run.expect_inner rfl _)
  intro _ _ q _
  apply FailsInside.bind (Run.skipBlanks_inner q)
  intro _ _ r _
  apply FailsInside.bind (importUri_run r)
  intro _ uri s hu
  obtain ⟨-, rfl, hu⟩ := hu
  apply FailsInside.bind (Run.advanceBlanks_inner hu.inner)
  intro _ _ u _
  apply FailsInside.bind (media_run u)
  intro _ media v _
  apply (FailsInside.expect .semicolon v).bind_total
  intro _
  exact (Total.change _).bind fun _ => .pure _

/-- On every parser and however deep functions are nested, a selector, a ruleset, an import, an
expression, a term and a function fail in place: the cause names the token that the parser is left
on, as it is written and with its place, and this token has not been moved past, nor has any in front
of it that could end the construct. -/
theorem failures_in_place :
    selector.FailsInPlace ∧ ruleset.FailsInPlace ∧ importRule.FailsInPlace ∧
    expression.FailsInPlace ∧ term.FailsInPlace ∧ function.FailsInPlace := by
  refine ⟨?_, ?_, ?_, ?_, ?_, ?_⟩
  · exact .of_run selector_run
  · exact .of_inside ruleset_run fun _ => ruleset_error
  · exact .of_inside importRule_run fun _ => importRule_error
  · exact .of_run expression_run
  · exact .of_run term_run
  · exact .of_run function_run

/-- The cause of a failure, if an action fails. -/
def failure? {α : Type} (m : ParseM α) (p : Parser) : Option ParseError :=
  match (m p).1 with
  | .error e => some e
  | .ok _ => none

/-- The cause of a failure is what the action fails with. -/
lemma apply_of_failure? {α : Type} {m : ParseM α} {p : Parser} {e : ParseError}
    (h : failure? m p = some e) : m p = (.error e, (m p).2) := by
  unfold failure? at h
  rcases hm : m p with ⟨_ | _, q⟩ <;> rw [hm] at h <;> cases h
  rfl

/-- A parser on the first token of a text, in which two functions may stand inside each other. -/
def onText (text : String) : Parser :=
  .ofText text ⟨none, .origin, 2⟩

/-- An action fails on a text, with a cause that is met where the parser is left. -/
def FailsOn {α : Type} (m : ParseM α) (text : String) (e : ParseError) : Prop :=
  failure? m (onText text) = some e ∧ e.MetBetween (onText text) (m (onText text)).2

/-- An action whose failures are in place fails so on a text. -/
lemma failsOn_of_failsInPlace {α : Type} {m : ParseM α} {text : String} {e : ParseError}
    (hm : m.FailsInPlace) (h : failure? m (onText text) = some e) : FailsOn m text e :=
  ⟨h, hm _ _ _ (apply_of_failure? h)⟩

/-- The causes point at a `]`, at a blank, at a `;`, at a `;` inside of two functions, at a blank
behind a sign, and at a function that is too deep. -/
theorem failures_in_place_examples :
    FailsOn selector "a > b[c~= ]" (.unexpectedToken "an attribute value" "']'" ⟨1, 11, 10⟩) ∧
    FailsOn ruleset "a, b )c" (.unexpectedToken "'\x7b'" "' '" ⟨1, 5, 4⟩) ∧
    FailsOn importRule "@import 'x' tv, ;" (.unexpectedToken "a medium" "';'" ⟨1, 17, 16⟩) ∧
    FailsOn expression "f( a, g( b ; c ) )" (.unexpectedToken "')'" "';'" ⟨1, 12, 11⟩) ∧
    FailsOn term "- ;" (.unexpectedToken "a value" "' '" ⟨1, 2, 1⟩) ∧
    FailsOn function "f(g(h(x)))" (.nestingTooDeep 2 ⟨1, 5, 4⟩) := by
  obtain ⟨hselector, hruleset, himport, hexpression, hterm, hfunction⟩ := failures_in_place
  refine ⟨?_, ?_, ?_, ?_, ?_, ?_⟩
  · exact failsOn_of_failsInPlace hselector (by decide +kernel)
  · exact failsOn_of_failsInPlace hruleset (by decide +kernel)
  · exact failsOn_of_failsInPlace himport (by decide +kernel)
  · exact failsOn_of_failsInPlace hexpression (by decide +kernel)
  · exact failsOn_of_failsInPlace hterm (by decide +kernel)
  · exact failsOn_of_failsInPlace hfunction (by decide +kernel)

end Grammar

end CssSyntax
