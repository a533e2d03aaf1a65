import CssSyntax.Tree.Selector
import CssSyntax.Tree.Value

/-!
# Stylesheets

The tree of a whole stylesheet. It is plain data and does not refer back to the text.
-/

namespace CssSyntax

/-- A property with its value. -/
structure Declaration where
  property : String
  value : Expression
  important : Bool
deriving DecidableEq, Repr

/-- Selectors and the declarations that apply to what they select. -/
structure Ruleset where
  selectors : List Selector
  declarations : List Declaration
deriving DecidableEq, Repr

/-- A stylesheet to include for some media, or for all if none is named. -/
structure Import where
  uri : String
  media : List String
deriving DecidableEq, Repr

/-- A stylesheet. -/
structure Stylesheet where
  charset : Option String := none
  imports : List Import := []
  rulesets : List Ruleset := []
deriving DecidableEq, Repr

end CssSyntax
