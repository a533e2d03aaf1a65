/-!
# UTF-8

The bytes of a text, and the text of some bytes. Bytes that form no character are not refused: a
lead byte together with those of its continuation bytes that are in place stands for one replacement
character, and reading goes on behind them.
-/

namespace CssSyntax.Utf8

/-- The bytes of a text. -/
def bytes (text : String) : List UInt8 :=
  text.toList.flatMap String.utf8EncodeChar

/-- The character that stands for bytes which form none. -/
def replacement : Char := Char.ofNat 0xFFFD

/-- A range of bytes, both ends included. -/
structure ByteRange where
  low : UInt8
  high : UInt8
deriving DecidableEq, Repr

/-- Whether a byte lies in a range. -/
def ByteRange.contains (range : ByteRange) (b : UInt8) : Bool :=
  range.low ≤ b && b ≤ range.high

/-- The range of a continuation byte. -/
def tail : ByteRange := ⟨0x80, 0xBF⟩

/-- The ranges of the bytes that have to follow a lead byte, in order. The byte behind `E0`, `ED`,
`F0` and `F4` is restricted, which rules out overlong forms, surrogates and what lies past the last
plane. Bytes that start no character have none. -/
def continuations (lead : UInt8) : Option (List ByteRange) :=
  if lead < 0x80 then some []
  else if lead < 0xC2 then none
  else if lead < 0xE0 then some [tail]
  else if lead = 0xE0 then some [⟨0xA0, 0xBF⟩, tail]
  else if lead = 0xED then some [⟨0x80, 0x9F⟩, tail]
  else if lead < 0xF0 then some [tail, tail]
  else if lead = 0xF0 then some [⟨0x90, 0xBF⟩, tail, tail]
  else if lead < 0xF4 then some [tail, tail, tail]
  else if lead = 0xF4 then some [⟨0x80, 0x8F⟩, tail, tail]
  else none

/-- The longest run of leading bytes that lie in the given ranges, one byte for each range. -/
def accepted : List ByteRange → List UInt8 → List UInt8
  | range :: ranges, b :: s => if range.contains b then b :: accepted ranges s else []
  | _, _ => []

/-- The bits that a lead byte contributes when `n` continuation bytes follow it. -/
def leadBits (lead : UInt8) (n : Nat) : Nat :=
  if n = 0 then lead.toNat else lead.toNat % Nat.pow 2 (6 - n)

/-- The character of a lead byte and its continuation bytes, six bits for each of them. -/
def assemble (lead : UInt8) (rest : List UInt8) : Char :=
  Char.ofNat (rest.foldl (fun n b => n * 64 + b.toNat % 64) (leadBits lead rest.length))

/-- The first character of some bytes, and the bytes behind it. -/
def first (lead : UInt8) (s : List UInt8) : Char × List UInt8 :=
  match continuations lead with
  | none => (replacement, s)
  | some ranges =>
    let rest := accepted ranges s
    (if rest.length = ranges.length then assemble lead rest else replacement, s.drop rest.length)

/-- Reading a character never gains bytes. -/
theorem length_first_le (lead : UInt8) (s : List UInt8) :
    (first lead s).2.length ≤ s.length := by
  unfold first
  split <;> simp

/-- The characters of some bytes. -/
def chars : List UInt8 → List Char
  | [] => []
  | b :: s =>
    have := length_first_le b s
    (first b s).1 :: chars (first b s).2
termination_by s => s.length
decreasing_by simp only [List.length_cons]; omega

/-- The text of some bytes. -/
def decode (s : List UInt8) : String :=
  String.ofList (chars s)

end CssSyntax.Utf8
