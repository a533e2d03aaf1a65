import CssSyntax.Source

/-!
# The parser's window

A parser looks at one token of its source and remembers the one before it, so that a single token
can be pushed back. It reads ahead no further than that, and it never moves past the end of the
input.

`Parser.ahead` bounds how often the window can move on, which is what ends every loop of the grammar
(`ahead_advance_lt`).
-/

namespace CssSyntax

/-- The settings of a parser. -/
structure Config where
  /-- The name of the document, for the log. -/
  source : Option String := none
  /-- The place of the first byte of the text. -/
  start : Location := .origin
  /-- How many functions may stand inside each other. -/
  maxFunctionDepth : Nat := 128
deriving Repr

/-- A window over a source of tokens. -/
structure Parser where
  source : Source
  /-- The token that the parser looks at. -/
  current : Token
  /-- The token before the current one, if it can be returned to. -/
  previous : Option Token
  /-- The token that was pushed back; it comes before those of the source. -/
  pushedBack : Option Token
  config : Config
  /-- The number of functions that the parser is inside of. -/
  depth : Nat
  /-- The records so far, newest first. -/
  log : List Record

namespace Parser

/-- A parser on the first token of a source. -/
def ofSource (source : Source) (config : Config) : Parser :=
  { source := source.next.source
    current := source.next.token
    previous := none
    pushedBack := none
    config
    depth := 0
    log := source.next.records.reverse }

/-- A parser on the first token of a text. -/
def ofText (text : String) (config : Config) : Parser :=
  ofSource (.scanner (.ofText text config.start)) config

/-- The kind of the current token. -/
def kind (p : Parser) : Kind :=
  p.current.kind

/-- Adds a record to the log. -/
def note (p : Parser) (r : Record) : Parser :=
  { p with log := r :: p.log }

/-- The records so far, oldest first, and the parser with an empty log. -/
def takeLog (p : Parser) : List Record × Parser :=
  (p.log.reverse, { p with log := [] })

/-- Moves on to the next token. A token that was pushed back comes first, and the end of the input is
never left. -/
def advance (p : Parser) : Parser :=
  match p.pushedBack with
  | some t => { p with current := t, previous := some p.current, pushedBack := none }
  | none =>
    if p.kind = .eof then p
    else
      let read := p.source.next
      { p with
        source := read.source
        current := read.token
        previous := some p.current
        log := read.records.reverse ++ p.log }

/-- Returns to the previous token and pushes the current one back. -/
def pushBack (p : Parser) : Except Misuse Parser :=
  match p.pushedBack, p.previous with
  | some _, _ => .error .pushBackTwice
  | none, none => .error .noPrevious
  | none, some t => .ok { p with current := t, previous := none, pushedBack := some p.current }

/-- How often a window on a token can move on within a source. -/
def reach (t : Token) (source : Source) : Nat :=
  if t.kind = .eof then 0 else source.remaining + 1

/-- How often the window can move on. -/
def ahead (p : Parser) : Nat :=
  match p.pushedBack with
  | some t => reach t p.source + 1
  | none => reach p.current p.source

/-- On the next token of a source the window can move on as often as the source has tokens. -/
theorem reach_next_le (source : Source) :
    reach source.next.token source.next.source ≤ source.remaining := by
  unfold reach
  split
  · exact Nat.zero_le _
  · next h => exact Source.remaining_next_lt h

/-- The window moves on to a token that was pushed back. -/
theorem advance_of_pushedBack {p : Parser} {t : Token} (h : p.pushedBack = some t) :
    p.advance = { p with current := t, previous := some p.current, pushedBack := none } := by
  simp only [advance, h]

/-- The window stays on the end of the input. -/
theorem advance_of_eof {p : Parser} (hp : p.pushedBack = none) (h : p.kind = .eof) :
    p.advance = p := by
  simp only [advance, hp, if_pos h]

/-- The window moves on to the next token of the source. -/
theorem advance_of_ne_eof {p : Parser} (hp : p.pushedBack = none) (h : p.kind ≠ .eof) :
    p.advance =
      { p with
        source := p.source.next.source
        current := p.source.next.token
        previous := some p.current
        log := p.source.next.records.reverse ++ p.log } := by
  simp only [advance, hp, if_neg h]

/-- In front of the end of the input the window moves on. -/
theorem ahead_advance_lt {p : Parser} (h : p.kind ≠ .eof) : p.advance.ahead < p.ahead := by
  cases hp : p.pushedBack with
  | some t =>
    rw [advance_of_pushedBack hp]
    simp only [ahead, hp]
    exact Nat.lt_succ_self _
  | none =>
    rw [advance_of_ne_eof hp h]
    have hr : reach p.current p.source = p.source.remaining + 1 := if_neg h
    simp only [ahead, hp, hr]
    exact Nat.lt_succ_of_le (reach_next_le p.source)

/-- Moves on as long as the current token is one to skip. -/
def skipWhile (skips : Kind → Bool) (stops : skips .eof = false) (p : Parser) : Parser :=
  if h : skips p.kind then
    have hne : p.kind ≠ .eof := fun he => by rw [he, stops] at h; cases h
    have := ahead_advance_lt hne
    skipWhile skips stops p.advance
  else p
termination_by p.ahead

/-- Skips blanks. -/
def skipBlanks (p : Parser) : Parser :=
  p.skipWhile Kind.isWhitespace rfl

/-- Skips what may stand between two rules. -/
def skipFiller (p : Parser) : Parser :=
  p.skipWhile Kind.isFiller rfl

end Parser

end CssSyntax
