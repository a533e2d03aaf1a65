/-!
# Selectors

A selector is a list of compounds joined by combinators. A compound is an optional element name
followed by conditions on ids, classes, attributes and pseudo classes.
-/

namespace CssSyntax

/-- The combinator between two compounds. -/
inductive Combinator where
  | descendant
  | child
  | sibling
deriving DecidableEq, Repr

/-- The text of a combinator. -/
def Combinator.text : Combinator → String
  | descendant => " "
  | child => ">"
  | sibling => "+"

/-- The name of an element. -/
inductive ElementName where
  /-- Any element. -/
  | universal
  | named (name : String)
deriving DecidableEq, Repr

/-- The text of an element name. -/
def ElementName.text : ElementName → String
  | universal => "*"
  | named n => n

/-- How an attribute is compared with a value. -/
inductive AttributeOperator where
  | equals
  | includes
  | dashMatch
deriving DecidableEq, Repr

/-- The text of an attribute operator. -/
def AttributeOperator.text : AttributeOperator → String
  | equals => "="
  | includes => "~="
  | dashMatch => "|="

/-- A condition on the attributes of an element; empty brackets have none of the three parts. -/
structure AttributeTest where
  name : Option String := none
  operator : Option AttributeOperator := none
  value : Option String := none
deriving DecidableEq, Repr

/-- A condition of a compound. -/
inductive Simple where
  | id (name : String)
  | className (name : String)
  | attr (test : AttributeTest)
  /-- A pseudo class; one with parentheses has a value, which may be empty. -/
  | pseudo (name : String) (value : Option String)
deriving DecidableEq, Repr

/-- An optional element name and the conditions behind it. -/
structure Compound where
  element : Option ElementName
  conditions : List Simple
deriving DecidableEq, Repr

/-- Compounds joined by combinators; the combinator at some position stands behind the compound
there. -/
structure Selector where
  compounds : List Compound
  combinators : List Combinator
deriving DecidableEq, Repr

end CssSyntax
