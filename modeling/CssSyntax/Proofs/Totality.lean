import CssSyntax.Proofs.Stylesheet
import CssSyntax.Parse

/-!
# Totality

Reading a stylesheet or a list of declarations gives a result on every parser, whatever its window
stands on and whatever was pushed back, and reads up to the end of the input. All failures on the way
are causes that recovery takes care of.

The repetitions of the grammar are guarded against steps that do not move the window. No step of the
grammar is of that kind, so the guard is never used: each repetition is the loop that it stands for,
and it ends (`ParseM.Ends`). Nor does the number of levels that functions are read with ever cut
their recursion off (`Grammar.function_eq`).
-/

namespace CssSyntax

namespace ParseM

variable {α : Type} {K : Kind → Prop}

/-- An action that does not misuse the parser. -/
def NoMisuse (m : ParseM α) : Prop :=
  ∀ p cause q, m p ≠ (.error (.misuse cause), q)

/-- A step whose repetition ends by itself on every parser. -/
def Ends (step : ParseM (Option α)) : Prop :=
  ∀ p, Loop step p (many step p).1 (many step p).2

/-- A run is no misuse of the window. -/
lemma NoMisuse.of_run {m : ParseM α} {Q : Parser → List Token → α → Parser → Prop}
    (h : ∀ p, m.Run K p (Q p)) : m.NoMisuse := by
  intro p cause q he
  obtain ⟨ts, -, -, hp⟩ := (h p).of_error he
  cases hp

/-- A step that reads a token whenever it gives something is repeated to an end. -/
lemma Ends.of_run {step : ParseM (Option α)} {I : Parser → List Token → α → Parser → Prop}
    {E : Parser → List Token → Parser → Prop} (h : ∀ p, step.Run K p (Step (I p) (E p))) :
    Ends step :=
  (Advances.of_run h).loop

end ParseM

namespace Grammar

open ParseM

/-! ### Actions that cannot fail -/

/-- A declaration that breaks is dropped, so it never fails. -/
lemma declaration_total : declaration.Total :=
  (Total.change _).bind fun _ => .orResync .declaration .declaration property_run

/-- An item of declarations never fails. -/
lemma declarationItem_total : declarationItem.Total := by
  apply Total.kind.bind
  intro k
  split
  · exact declaration_total
  · exact (Total.change _).bind fun _ => .pure none

/-- The next item of a list of declarations never fails. -/
lemma listItem_total : listItem?.Total := by
  apply (Total.change _).bind
  intro _
  apply Total.kind.bind
  intro k
  split
  · exact .pure none
  · exact (Total.change _).bind fun _ => .pure (some none)
  · exact (Total.change _).bind fun _ => .pure (some none)
  · exact declarationItem_total.bind fun d => .pure (some d)

/-- The next item of a block never fails. -/
lemma blockItem_total : blockItem?.Total := by
  apply Total.kind.bind
  intro k
  split
  · exact .pure none
  · exact .pure none
  · exact Total.advanceBlanks.bind fun _ => .pure (some none)
  · exact declarationItem_total.bind fun d => (Total.change _).bind fun _ => .pure (some d)

/-- A list of declarations never fails. -/
lemma declarations_total : declarations.Total :=
  (Total.change _).bind fun _ => listItem_total.manySome

/-- An at-rule that is not known is skipped without a failure. -/
lemma unknownAtRule_total : unknownAtRule.Total :=
  .change _

/-- The next item in front of the imports never fails. -/
lemma leadingItem_total : leadingItem?.Total := by
  apply Total.kind.bind
  intro k
  split
  · exact unknownAtRule_total.bind fun u => .pure (some u)
  · exact .pure none

/-- A charset never fails; it is found or not. -/
lemma charset_total : charset?.Total := by
  apply (Total.change _).bind
  intro _
  apply Total.kind.bind
  intro k
  split
  · exact .orResync .charset .declaration charsetRule_run
  · exact .pure none

/-- The next item among the imports never fails. -/
lemma importItem_total : importItem?.Total := by
  apply (Total.change _).bind
  intro _
  apply Total.kind.bind
  intro k
  split
  · exact unknownAtRule_total.bind fun _ => .pure (some none)
  · apply Total.bind (.orResync .importRule .declaration importRule_run)
    intro i
    exact .pure (some i)
  · exact .pure none

/-- A ruleset that breaks is dropped, so an item of the rulesets never fails. -/
lemma rulesetItem_total : rulesetItem.Total := by
  apply Total.kind.bind
  intro k
  split
  · exact unknownAtRule_total.bind fun _ => .pure none
  · split
    · exact .orResync .ruleset .block ruleset_run
    · exact (Total.change _).bind fun _ => .pure none

/-- The next item among the rulesets never fails. -/
lemma nextRuleset_total : rulesetItem?.Total := by
  apply Total.kind.bind
  intro k
  split
  · exact .pure none
  · apply rulesetItem_total.bind
    intro r
    exact (Total.change _).bind fun _ => .pure (some r)

/-- A stylesheet never fails. -/
lemma stylesheet_total : stylesheet.Total := by
  apply (Total.change _).bind
  intro _
  apply leadingItem_total.many.bind
  intro _
  apply charset_total.bind
  intro charset
  apply importItem_total.manySome.bind
  intro imports
  apply nextRuleset_total.manySome.bind
  intro rulesets
  exact .pure _

/-- A stylesheet is read from every parser up to the end of the input, and it is well-formed. -/
lemma stylesheet_reads_all (p : Parser) :
    ∃ s q, stylesheet p = (.ok s, q) ∧ s.WellFormed ∧ q.kind = .eof := by
  obtain ⟨s, q, he⟩ := stylesheet_total p
  obtain ⟨ts, -, -, hs, hq⟩ := (stylesheet_run p).of_ok he
  exact ⟨s, q, he, hs.wellFormed, hq⟩

/-- Declarations are read from every parser up to the end of the input, and they are well-formed. -/
lemma declarations_reads_all (p : Parser) :
    ∃ ds q, declarations p = (.ok ds, q) ∧ (∀ d ∈ ds, d.WellFormed) ∧ q.kind = .eof := by
  obtain ⟨ds, q, he⟩ := declarations_total p
  obtain ⟨ts, -, -, hds, hq⟩ := (declarations_run p).of_ok he
  exact ⟨ds, q, he, hds.forall_mem fun _ _ hd => hd.wellFormed, hq⟩

end Grammar

/-! ### Reports -/

/-- The report of an action that succeeds holds its result. -/
lemma Parser.report_of_ok {α : Type} {m : ParseM α} {p q : Parser} {a : α}
    (h : m p = (.ok a, q)) : (p.report m).result = .ok a := by
  unfold Parser.report
  rw [h]
  rfl

/-- Parsing a source as a stylesheet gives a well-formed one. -/
lemma parseSource_ok (source : Source) (config : Config) :
    ∃ s, (parseSource source config).result = .ok s ∧ s.WellFormed := by
  obtain ⟨s, q, he, hs, -⟩ :=
    Grammar.stylesheet_reads_all ((Parser.ofSource source config).note (.reading config.source))
  exact ⟨s, Parser.report_of_ok (m := Grammar.document) he, hs⟩

/-- Parsing a source as declarations gives well-formed ones. -/
lemma declarationsReport_ok (source : Source) (config : Config) :
    ∃ ds, ((Parser.ofSource source config).report Grammar.declarations).result = .ok ds ∧
      ∀ d ∈ ds, d.WellFormed := by
  obtain ⟨ds, q, he, hds, -⟩ := Grammar.declarations_reads_all (Parser.ofSource source config)
  exact ⟨ds, Parser.report_of_ok he, hds⟩

open ParseM Grammar in
/-- Reading never gets stuck and never fails. On every parser a stylesheet and a list of declarations
are read up to the end of the input, no production misuses the parser, all repetitions end by
themselves, and functions are read by the recursion of the grammar. -/
theorem reading_total :
    (∀ p, ∃ s q, stylesheet p = (.ok s, q) ∧ q.kind = .eof) ∧
    (∀ p, ∃ ds q, declarations p = (.ok ds, q) ∧ q.kind = .eof) ∧
    (selector.NoMisuse ∧ combinator?.NoMisuse ∧ ruleset.NoMisuse ∧ importRule.NoMisuse ∧
      charset?.NoMisuse ∧ declaration.NoMisuse ∧ expression.NoMisuse ∧ term.NoMisuse ∧
      function.NoMisuse ∧ ∀ boundary, (change (Parser.resync boundary)).NoMisuse) ∧
    (leadingItem?.Ends ∧ importItem?.Ends ∧ rulesetItem?.Ends ∧ listItem?.Ends ∧
      blockItem?.Ends ∧ furtherSelector?.Ends ∧ joined?.Ends ∧ condition?.Ends ∧
      furtherMedium?.Ends ∧ (operand? term).Ends) ∧
    function = functionWith expression ∧
    ∀ text, (∃ s, parse text = .ok s) ∧ ∃ ds, parseDeclarations text = .ok ds := by
  refine ⟨?_, ?_, ?_, ?_, function_eq, ?_⟩
  · intro p
    obtain ⟨s, q, he, -, hq⟩ := stylesheet_reads_all p
    exact ⟨s, q, he, hq⟩
  · intro p
    obtain ⟨ds, q, he, -, hq⟩ := declarations_reads_all p
    exact ⟨ds, q, he, hq⟩
  · exact ⟨.of_run selector_run, .of_run combinator_run, .of_run ruleset_run,
      .of_run importRule_run, .of_run charset_run, .of_run declaration_run,
      .of_run expression_run, .of_run term_run, .of_run function_run, fun _ _ _ _ => nofun⟩
  · exact ⟨.of_run leadingItem_run, .of_run importItem_run, .of_run nextRuleset_run,
      .of_run listItem_run, .of_run blockItem_run, .of_run furtherSelector_run,
      .of_run joined_run, .of_run condition_run, .of_run furtherMedium_run,
      .of_run (operand_run term_run)⟩
  · intro text
    obtain ⟨s, hs, -⟩ := parseSource_ok (.scanner (.ofText text .origin)) {}
    obtain ⟨ds, hds, -⟩ := declarationsReport_ok (.scanner (.ofText text .origin)) {}
    exact ⟨⟨s, hs⟩, ds, hds⟩

/-- Whatever a source holds, the stylesheet and the declarations that are read from it are well
formed. -/
theorem trees_wellFormed (source : Source) (config : Config) :
    (∃ s, (parseSource source config).result = .ok s ∧ s.WellFormed) ∧
    ∃ ds, ((Parser.ofSource source config).report Grammar.declarations).result = .ok ds ∧
      ∀ d ∈ ds, d.WellFormed :=
  ⟨parseSource_ok source config, declarationsReport_ok source config⟩

end CssSyntax
