import CssSyntax.Grammar.Expression
import CssSyntax.Tree.Stylesheet

/-!
# Declarations

A declaration that is malformed is dropped, and parsing goes on behind it. The same items make up the
block of a ruleset and a list of declarations that stands on its own.
-/

namespace CssSyntax.Grammar

open ParseM

/-- Whether the value is marked as important. -/
def priority : ParseM Bool := do
  if (← kind) = .important then
    advanceBlanks
    return true
  else return false

/-- Reads `IDENT S* ':' S* expression [ IMPORTANT S* ]?`. -/
def property : ParseM Declaration := do
  let name ← ident "a property name"
  skipBlanks
  expect .colon
  skipBlanks
  if !(← kind).startsTerm then unexpected "a value"
  else
    let value ← expression
    return ⟨name, value, ← priority⟩

/-- A declaration, or nothing if it is malformed. -/
def declaration : ParseM (Option Declaration) := do
  enter .declaration
  orResync .declaration .declaration property

/-- A declaration, or anything else that stands in its place and is skipped. -/
def declarationItem : ParseM (Option Declaration) := do
  match ← kind with
  | .ident _ => declaration
  | _ =>
    change fun p => (p.note (.ignoredDeclaration p.current)).resync .declaration
    return none

/-- An item of a list of declarations; a brace that closes nothing is skipped. -/
def listItem? : ParseM (Option (Option Declaration)) := do
  skipBlanks
  match ← kind with
  | .eof => return none
  | .semicolon | .rcurly =>
    advance
    return some none
  | _ => return some (← declarationItem)

/-- A list of declarations without a block around it. -/
def declarations : ParseM (List Declaration) := do
  enter .declarations
  manySome listItem?

/-- An item of a block of declarations. -/
def blockItem? : ParseM (Option (Option Declaration)) := do
  match ← kind with
  | .rcurly | .eof => return none
  | .semicolon =>
    advanceBlanks
    return some none
  | _ =>
    let item ← declarationItem
    skipBlanks
    return some item

/-- Reads `'{' S* declaration? [ ';' S* declaration? ]* '}' S*`; the end of the input closes the block
too. -/
def block : ParseM (List Declaration) := do
  expect .lcurly
  skipBlanks
  let items ← manySome blockItem?
  advanceBlanks
  return items

end CssSyntax.Grammar
