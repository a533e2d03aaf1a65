import CssSyntax.Tree.Stylesheet

/-!
# The content of trees

The strings that a tree holds, in the order in which they are written, and how deep its functions
stand inside each other.
-/

namespace CssSyntax

mutual

/-- The strings of a term: its text, or the name of a function followed by its arguments. -/
def Term.strings : Term → List String
  | .value _ v => [v.text]
  | .function _ name terms _ => name :: Term.stringsList terms

/-- The strings of a list of terms. -/
def Term.stringsList : List Term → List String
  | [] => []
  | t :: ts => t.strings ++ Term.stringsList ts

end

mutual

/-- How many functions stand inside each other in a term. -/
def Term.depth : Term → Nat
  | .value _ _ => 0
  | .function _ _ terms _ => Term.depthList terms + 1

/-- How many functions stand inside each other in a list of terms. -/
def Term.depthList : List Term → Nat
  | [] => 0
  | t :: ts => max t.depth (Term.depthList ts)

end

/-- How many functions stand inside each other in an expression. -/
def Expression.depth (e : Expression) : Nat :=
  Term.depthList e.terms

/-- The strings of an expression. -/
def Expression.strings (e : Expression) : List String :=
  Term.stringsList e.terms

/-- The strings of a condition; a pseudo class without an argument has its name only. -/
def Simple.strings : Simple → List String
  | .id n => [n]
  | .className n => [n]
  | .attr test => test.name.toList ++ test.value.toList
  | .pseudo n v => n :: v.toList.filter (· ≠ "")

/-- The strings of an element name; the universal one has none. -/
def ElementName.strings : ElementName → List String
  | .universal => []
  | .named n => [n]

/-- The strings of a compound. -/
def Compound.strings (c : Compound) : List String :=
  c.element.toList.flatMap ElementName.strings ++ c.conditions.flatMap Simple.strings

/-- The strings of a selector. -/
def Selector.strings (s : Selector) : List String :=
  s.compounds.flatMap Compound.strings

/-- The strings of a declaration. -/
def Declaration.strings (d : Declaration) : List String :=
  d.property :: d.value.strings

/-- The strings of a ruleset. -/
def Ruleset.strings (r : Ruleset) : List String :=
  r.selectors.flatMap Selector.strings ++ r.declarations.flatMap Declaration.strings

/-- The strings of an import. -/
def Import.strings (i : Import) : List String :=
  i.uri :: i.media

/-- The strings of a stylesheet. -/
def Stylesheet.strings (s : Stylesheet) : List String :=
  s.charset.toList ++ s.imports.flatMap Import.strings ++ s.rulesets.flatMap Ruleset.strings

end CssSyntax
