import CssSyntax.Tree.Stylesheet

/-!
# Well-formed trees

What a tree that was read from tokens keeps, and what a tree needs to be spelled: something stands
between any two neighbours of a list of terms or of compounds, no list of them is empty, and the
parts of an attribute condition come in one of three shapes.
-/

namespace CssSyntax

/-- Every function inside a term has arguments with one operator between any two of them. -/
inductive Term.WellFormed : Term → Prop where
  | value (sign : Option Sign) (value : Value) : WellFormed (.value sign value)
  | function (sign : Option Sign) (name : String) {terms : List Term} {operators : List Operator} :
    (∀ t ∈ terms, WellFormed t) → terms.length = operators.length + 1 →
      WellFormed (.function sign name terms operators)

/-- One operator stands between any two neighbouring terms, also inside functions. -/
structure Expression.WellFormed (e : Expression) : Prop where
  terms : ∀ t ∈ e.terms, t.WellFormed
  operators : e.terms.length = e.operators.length + 1

/-- Empty brackets, a name alone, or a name that is compared with a value. -/
inductive AttributeTest.WellFormed : AttributeTest → Prop where
  | empty : WellFormed {}
  | present (name : String) : WellFormed { name := some name }
  | compared (name : String) (operator : AttributeOperator) (value : String) :
    WellFormed ⟨some name, some operator, some value⟩

/-- The parts of an attribute condition fit together; other conditions have no parts. -/
def Simple.WellFormed : Simple → Prop
  | .attr test => test.WellFormed
  | _ => True

/-- A compound has an element name or a condition. -/
structure Compound.WellFormed (c : Compound) : Prop where
  nonempty : c.element = none → c.conditions ≠ []
  conditions : ∀ s ∈ c.conditions, s.WellFormed

/-- One combinator stands between any two neighbouring compounds. -/
structure Selector.WellFormed (s : Selector) : Prop where
  compounds : ∀ c ∈ s.compounds, c.WellFormed
  combinators : s.compounds.length = s.combinators.length + 1

/-- The value of a declaration is well formed. -/
def Declaration.WellFormed (d : Declaration) : Prop :=
  d.value.WellFormed

/-- A ruleset has a selector. -/
structure Ruleset.WellFormed (r : Ruleset) : Prop where
  nonempty : r.selectors ≠ []
  selectors : ∀ s ∈ r.selectors, s.WellFormed
  declarations : ∀ d ∈ r.declarations, d.WellFormed

/-- All rulesets of a stylesheet are well formed. -/
def Stylesheet.WellFormed (s : Stylesheet) : Prop :=
  ∀ r ∈ s.rulesets, r.WellFormed

end CssSyntax
