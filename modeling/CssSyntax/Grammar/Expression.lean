import CssSyntax.ParseM
import CssSyntax.Tree.Value

/-!
# Expressions

Expressions, terms and functions call each other: the arguments of a function are an expression.
Functions may stand inside each other only up to a limit, and the levels that are left end the
recursion.
-/

namespace CssSyntax.Grammar

open ParseM

/-- The sign of a term, if there is one. -/
def sign? : ParseM (Option Sign) := do
  match ← kind with
  | .minus =>
    advance
    return some .minus
  | .plus =>
    advance
    return some .plus
  | _ => return none

/-- Reads `[ '-' | '+' ]? [ value S* | function ]` with the given production for functions. -/
def termWith (function : ParseM Function) : ParseM Term := do
  enter .term
  let sign ← sign?
  match ← kind with
  | .function _ => return (← function).toTerm sign
  | k =>
    match Value.ofKind? k with
    | some v =>
      advanceBlanks
      return .value sign v
    | none => unexpected "a value"

/-- The operator in front of a further term, if one follows. -/
def operator? : ParseM (Option Operator) := do
  match ← kind with
  | .slash =>
    advanceBlanks
    return some .slash
  | .comma =>
    advanceBlanks
    return some .comma
  | k => return if k.startsTerm then some .space else none

/-- A further term of an expression, with the operator in front of it. -/
def operand? (term : ParseM Term) : ParseM (Option (Operator × Term)) := do
  match ← operator? with
  | some op => return some (op, ← term)
  | none => return none

/-- Reads `term [ [ [ '/' | ',' ] S* ]? term ]*` with the given production for terms. -/
def expressionWith (term : ParseM Term) : ParseM Expression := do
  enter .expression
  let first ← term
  let others ← many (operand? term)
  return ⟨first :: others.map Prod.snd, others.map Prod.fst⟩

/-- Fails because a function stands inside too many others. -/
def tooDeep {α : Type} : ParseM α := fun p =>
  (.error (.nestingTooDeep p.config.maxFunctionDepth p.current.location), p)

/-- Runs an action one level deeper, whatever comes of it. -/
def nested {α : Type} (m : ParseM α) : ParseM α := fun p =>
  let (result, q) := m { p with depth := p.depth + 1 }
  (result, { q with depth := q.depth - 1 })

/-- Reads `FUNCTION S* expression ')' S*` with the given production for the arguments. -/
def functionWith (arguments : ParseM Expression) : ParseM Function := do
  enter .function
  let p ← window
  if p.depth ≥ p.config.maxFunctionDepth then tooDeep
  else nested do
    match ← kind with
    | .function name =>
      advanceBlanks
      if !(← kind).startsTerm then unexpected "a function argument"
      else
        let arguments ← arguments
        expect .rparen
        skipBlanks
        return ⟨name, arguments⟩
    | _ => unexpected "a function"

/-- A function inside which the given number of levels is left. Once none is left the function fails
before its arguments are reached. -/
def functionWithin : Nat → ParseM Function
  | 0 => functionWith tooDeep
  | levels + 1 => functionWith (expressionWith (termWith (functionWithin levels)))

/-- A function with its arguments. -/
def function : ParseM Function := do
  let p ← window
  functionWithin (p.config.maxFunctionDepth - p.depth)

/-- A term with its optional sign. -/
def term : ParseM Term :=
  termWith function

/-- Terms joined by operators. -/
def expression : ParseM Expression :=
  expressionWith term

end CssSyntax.Grammar
