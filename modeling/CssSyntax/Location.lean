/-!
# Locations

Where a byte stands in a document: its line, its column and its offset. A text may be a part of a
larger document, so its first byte may stand anywhere.

`Location.after` reads a text byte by byte. A `LineIndex` answers the same question for any offset
from the starts of the lines, which are found once.
-/

namespace CssSyntax

/-- A place in a document; lines and columns count from one, and columns and offsets count bytes. -/
structure Location where
  line : Nat := 1
  column : Nat := 1
  offset : Nat := 0
deriving DecidableEq, Repr

namespace Location

/-- The first place of a document. -/
def origin : Location := {}

/-- The text of a place in messages, which leaves the offset out. -/
def text (l : Location) : String :=
  "(" ++ toString l.line ++ ":" ++ toString l.column ++ ")"

/-- The place after a byte: a line feed ends its line, any other byte takes one column. -/
def step (l : Location) (byte : UInt8) : Location :=
  if byte = 0x0A then ⟨l.line + 1, 1, l.offset + 1⟩ else ⟨l.line, l.column + 1, l.offset + 1⟩

/-- The place after every byte of a text. -/
def after (l : Location) (bytes : List UInt8) : Location :=
  bytes.foldl step l

/-- The place `n` columns further on the same line. -/
def skip (l : Location) (n : Nat) : Location :=
  ⟨l.line, l.column + n, l.offset + n⟩

end Location

/-- The lines of a text: where its first byte stands, and at which offset each line starts. -/
structure LineIndex where
  start : Location
  starts : List Nat
deriving Repr

namespace LineIndex

/-- The offsets just behind the line feeds of a text whose first byte has offset `i`. -/
def startsFrom (i : Nat) : List UInt8 → List Nat
  | [] => []
  | b :: s => if b = 0x0A then (i + 1) :: startsFrom (i + 1) s else startsFrom (i + 1) s

/-- The lines of a text that starts at the given place. -/
def ofBytes (start : Location) (text : List UInt8) : LineIndex :=
  ⟨start, 0 :: startsFrom 0 text⟩

/-- The place of the byte at an offset, which may lie past the end of the text. The last line that
starts at or before the offset holds it, and only the first line is moved by the start column. -/
def locate (index : LineIndex) (offset : Nat) : Location :=
  let before := index.starts.takeWhile (· ≤ offset)
  let column := offset - before.getLastD 0
  { line := index.start.line + (before.length - 1)
    column := if before.length ≤ 1 then index.start.column + column else column + 1
    offset := index.start.offset + offset }

end LineIndex

end CssSyntax
