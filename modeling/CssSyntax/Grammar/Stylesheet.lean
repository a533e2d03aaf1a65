import CssSyntax.Grammar.Declaration
import CssSyntax.Grammar.Selector

/-!
# Stylesheets

A stylesheet is an optional charset rule, then imports, then rulesets. At-rules that are not known
may stand anywhere between them and are skipped, and so is everything that is malformed.
-/

namespace CssSyntax.Grammar

open ParseM

/-- The value of a string in double quotes, which is moved past. -/
def doubleQuoted : ParseM String := do
  match ← kind with
  | .string v quote =>
    if quote = '"' then
      advance
      return v
    else unexpected "a double quoted string"
  | _ => unexpected "a double quoted string"

/-- Reads `CHARSET ' ' STRING ';'` with a single space and double quotes. -/
def charsetRule : ParseM String := do
  expect .atCharset
  if (← kind) = .whitespace " " then
    advance
    let name ← doubleQuoted
    expect .semicolon
    return name
  else unexpected "a single space"

/-- The charset that a stylesheet names; a rule that is malformed is dropped. -/
def charset? : ParseM (Option String) := do
  enter .charset
  if (← kind) = .atCharset then orResync .charset .declaration charsetRule
  else return none

/-- The uri of an import. -/
def importUri : ParseM String := do
  match ← kind with
  | .string v _ => return v
  | .url v => return v
  | _ => unexpected "a string or url"

/-- A further medium of an import, if one follows. -/
def furtherMedium? : ParseM (Option String) := do
  if (← kind) = .comma then
    advanceBlanks
    let medium ← ident "a medium"
    skipBlanks
    return some medium
  else return none

/-- Reads `[ IDENT S* [ ',' S* IDENT S* ]* ]?`. -/
def media : ParseM (List String) := do
  match ← kind with
  | .ident first =>
    advanceBlanks
    return first :: (← many furtherMedium?)
  | _ => return []

/-- Reads `IMPORT S* [ STRING | URL ] S* media ';' S*`. -/
def importRule : ParseM Import := do
  enter .importRule
  expect .atImport
  skipBlanks
  let uri ← importUri
  advanceBlanks
  let media ← media
  expect .semicolon
  skipBlanks
  return ⟨uri, media⟩

/-- Skips an at-rule that is not known. -/
def unknownAtRule : ParseM Unit :=
  change Parser.skipAtRule

/-- A further selector of a ruleset, if one follows. -/
def furtherSelector? : ParseM (Option Selector) := do
  if (← kind) = .comma then
    advanceBlanks
    if (← kind).startsSelector then return some (← selector)
    else unexpected "a selector"
  else return none

/-- Reads `selector [ ',' S* selector ]* block`. -/
def ruleset : ParseM Ruleset := do
  enter .ruleset
  let first ← selector
  let others ← many furtherSelector?
  return ⟨first :: others, ← block⟩

/-- An item in front of the charset rule. -/
def leadingItem? : ParseM (Option Unit) := do
  if (← kind) = .atUnknown then return some (← unknownAtRule)
  else return none

/-- An item of the imports. -/
def importItem? : ParseM (Option (Option Import)) := do
  change Parser.skipFiller
  match ← kind with
  | .atUnknown =>
    unknownAtRule
    return some none
  | .atImport => return some (← orResync .importRule .declaration importRule)
  | _ => return none

/-- An item of the rulesets. -/
def rulesetItem : ParseM (Option Ruleset) := do
  let k ← kind
  if k = .atUnknown then
    unknownAtRule
    return none
  else if k.startsSelector then orResync .ruleset .block ruleset
  else
    change fun p => (p.note (.ignoredRuleset p.current)).resync .block
    return none

/-- An item of the rulesets, if the input has not ended. -/
def rulesetItem? : ParseM (Option (Option Ruleset)) := do
  if (← kind) = .eof then return none
  else
    let item ← rulesetItem
    change Parser.skipFiller
    return some item

/-- A complete stylesheet. -/
def stylesheet : ParseM Stylesheet := do
  enter .stylesheet
  let _ ← many leadingItem?
  let charset ← charset?
  let imports ← manySome importItem?
  let rulesets ← manySome rulesetItem?
  return ⟨charset, imports, rulesets⟩

/-- A complete stylesheet, with a record of the document it is in. -/
def document : ParseM Stylesheet := do
  change fun p => p.note (.reading p.config.source)
  stylesheet

end CssSyntax.Grammar
