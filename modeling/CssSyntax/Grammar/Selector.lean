import CssSyntax.ParseM
import CssSyntax.Tree.Selector

/-!
# Selectors

Compounds are joined by combinators. Blanks are a combinator only if a compound follows them, so the
token behind them is looked at and pushed back if it starts none.
-/

namespace CssSyntax.Grammar

open ParseM

/-- Reads `'.' IDENT`. -/
def classSelector : ParseM Simple := do
  enter .classSelector
  expect .dot
  return .className (← ident "a class name")

/-- The operator of an attribute condition. -/
def attributeOperator : ParseM AttributeOperator := do
  match ← kind with
  | .equals => return .equals
  | .includes => return .includes
  | .dashMatch => return .dashMatch
  | _ => unexpected "an attribute operator"

/-- The value of an attribute condition. -/
def attributeValue : ParseM String := do
  match ← kind with
  | .ident v => return v
  | .string v _ => return v
  | _ => unexpected "an attribute value"

/-- Reads `'[' S* [ IDENT S* [ [ '=' | '~=' | '|=' ] S* [ IDENT | STRING ] S* ]? ]? ']'`. -/
def attributeSelector : ParseM AttributeTest := do
  enter .attributeSelector
  expect .lbracket
  skipBlanks
  if (← kind) = .rbracket then
    advance
    return {}
  else
    let name ← ident "an attribute name"
    skipBlanks
    if (← kind) = .rbracket then
      advance
      return { name := some name }
    else
      let operator ← attributeOperator
      advanceBlanks
      let value ← attributeValue
      advanceBlanks
      expect .rbracket
      return ⟨some name, some operator, some value⟩

/-- The argument of a pseudo class, which is empty if the parenthesis closes at once. -/
def pseudoArgument : ParseM String := do
  match ← kind with
  | .rparen => return ""
  | .ident v =>
    advanceBlanks
    return v
  | _ => unexpected "an identifier or ')'"

/-- Reads `':' [ IDENT | FUNCTION S* [ IDENT S* ]? ')' ]`. -/
def pseudoSelector : ParseM Simple := do
  enter .pseudoSelector
  expect .colon
  match ← kind with
  | .ident name =>
    advance
    return .pseudo name none
  | .function name =>
    advanceBlanks
    let value ← pseudoArgument
    expect .rparen
    return .pseudo name (some value)
  | _ => unexpected "a pseudo class name"

/-- The element name of a compound, if there is one. -/
def elementName? : ParseM (Option ElementName) := do
  match ← kind with
  | .ident name =>
    advance
    return some (.named name)
  | .star =>
    advance
    return some .universal
  | _ => return none

/-- A condition of a compound, if one follows. -/
def condition? : ParseM (Option Simple) := do
  match ← kind with
  | .hash name =>
    advance
    return some (.id name)
  | .dot => return some (← classSelector)
  | .lbracket => return some (.attr (← attributeSelector))
  | .colon => return some (← pseudoSelector)
  | _ => return none

/-- Reads `element? [ HASH | class | attribute | pseudo ]*`, of which not everything may be missing. -/
def compound : ParseM Compound := do
  enter .selectorGroup
  let element ← elementName?
  let conditions ← many condition?
  if element = none ∧ conditions = [] then unexpected "a selector"
  else return ⟨element, conditions⟩

/-- The combinator in front of a further compound, if one follows. -/
def combinator? : ParseM (Option Combinator) := do
  enter .combinator
  match ← kind with
  | .whitespace _ =>
    advance
    if (← kind).startsSelector then return some .descendant
    else
      pushBack
      return none
  | .greater =>
    advanceBlanks
    return some .child
  | .plus =>
    advanceBlanks
    return some .sibling
  | _ => return none

/-- A further compound of a selector, with the combinator in front of it. -/
def joined? : ParseM (Option (Combinator × Compound)) := do
  match ← combinator? with
  | some c => return some (c, ← compound)
  | none => return none

/-- Reads `compound [ combinator compound ]*`. -/
def selector : ParseM Selector := do
  enter .selector
  let first ← compound
  let others ← many joined?
  return ⟨first :: others.map Prod.snd, others.map Prod.fst⟩

end CssSyntax.Grammar
