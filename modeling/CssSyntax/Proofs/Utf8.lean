import Mathlib.Algebra.Group.Nat.Defs
import Mathlib.Data.List.Forall2
import CssSyntax.Text.Utf8

/-!
# UTF-8 there and back

Every character is a lead byte and the continuation bytes that it asks for (`exists_encodes`), one
lemma for each number of bytes. So decoding inverts encoding (`chars_encode`), and a tail of encoded
characters is encoded characters again, unless it starts with a continuation byte (`suffix_encode`).
-/

namespace CssSyntax.Utf8

/-- The bytes of some characters. -/
def encode (cs : List Char) : List UInt8 :=
  cs.flatMap String.utf8EncodeChar

/-- No characters have no bytes. -/
@[simp] lemma encode_nil : encode [] = [] := rfl

/-- The bytes of a character stand in front of those of the others. -/
@[simp] lemma encode_cons (c : Char) (cs : List Char) :
    encode (c :: cs) = String.utf8EncodeChar c ++ encode cs := List.flatMap_cons

/-- A number below 256 is the value of its byte. -/
lemma toNat_byte {n : Nat} (h : n < 256) : (UInt8.ofNat n).toNat = n := by
  rw [UInt8.toNat_ofNat']
  exact Nat.mod_eq_of_lt h

/-- A byte is in a range if its value is between the bounds. -/
lemma contains_iff {range : ByteRange} {b : UInt8} :
    range.contains b = true ↔ range.low.toNat ≤ b.toNat ∧ b.toNat ≤ range.high.toNat := by
  simp [ByteRange.contains, UInt8.le_iff_toNat_le]

/-- Each byte lies in its range. -/
abbrev Fits (ranges : List ByteRange) (bs : List UInt8) : Prop :=
  List.Forall₂ (fun range b => range.contains b = true) ranges bs

/-- Bytes that lie in their ranges are all accepted. -/
lemma accepted_append {ranges : List ByteRange} {bs : List UInt8} (s : List UInt8)
    (h : Fits ranges bs) : accepted ranges (bs ++ s) = bs := by
  induction h with
  | nil => rfl
  | cons hb _ ih => rw [List.cons_append, accepted, if_pos hb, ih]

/-- A lead byte in front of the bytes it asks for is read as one character. -/
lemma first_append {lead : UInt8} {ranges : List ByteRange} {bs : List UInt8} (s : List UInt8)
    (hlead : continuations lead = some ranges) (h : Fits ranges bs) :
    first lead (bs ++ s) = (assemble lead bs, s) := by
  simp [first, hlead, accepted_append s h, List.Forall₂.length_eq h]

/-- The bytes that may follow a lead byte, by its value. -/
lemma continuations_toNat (lead : UInt8) : continuations lead =
    if lead.toNat < 0x80 then some []
    else if lead.toNat < 0xC2 then none
    else if lead.toNat < 0xE0 then some [tail]
    else if lead.toNat = 0xE0 then some [⟨0xA0, 0xBF⟩, tail]
    else if lead.toNat = 0xED then some [⟨0x80, 0x9F⟩, tail]
    else if lead.toNat < 0xF0 then some [tail, tail]
    else if lead.toNat = 0xF0 then some [⟨0x90, 0xBF⟩, tail, tail]
    else if lead.toNat < 0xF4 then some [tail, tail, tail]
    else if lead.toNat = 0xF4 then some [⟨0x80, 0x8F⟩, tail, tail]
    else none := by
  simp only [continuations, UInt8.lt_iff_toNat_lt, ← UInt8.toNat_inj]
  rfl

/-- A lead byte is no continuation byte, asks for nothing only if it is ASCII, and asks for
continuation bytes only. -/
lemma continuations_spec {lead : UInt8} {ranges : List ByteRange}
    (h : continuations lead = some ranges) :
    tail.contains lead = false ∧ (ranges = [] ↔ lead.toNat < 0x80) ∧
      ∀ range ∈ ranges, 0x80 ≤ range.low.toNat ∧ range.high.toNat ≤ 0xBF := by
  have hall : ∀ n < 256, ∀ ranges ∈ continuations (UInt8.ofNat n),
      tail.contains (UInt8.ofNat n) = false ∧ (ranges = [] ↔ n < 0x80) ∧
        ∀ range ∈ ranges, 0x80 ≤ range.low.toNat ∧ range.high.toNat ≤ 0xBF := by
    decide +kernel
  have hbyte : UInt8.ofNat lead.toNat = lead := UInt8.ofNat_toNat
  have hspec := hall lead.toNat lead.toNat_lt ranges (hbyte.symm ▸ h)
  rwa [hbyte] at hspec

/-- The bytes of a character: a lead byte and the continuation bytes that it asks for. -/
structure Encodes (c : Char) (lead : UInt8) (rest : List UInt8) : Prop where
  bytes : String.utf8EncodeChar c = lead :: rest
  tails : ∀ b ∈ rest, tail.contains b = true
  not_tail : tail.contains lead = false
  ascii : rest = [] ↔ lead.toNat < 0x80
  read : ∀ s, first lead (rest ++ s) = (c, s)

/-- Bytes that encode a character are read as it. -/
lemma Encodes.intro {c : Char} {lead : UInt8} {rest : List UInt8} {ranges : List ByteRange}
    (hbytes : String.utf8EncodeChar c = lead :: rest) (hlead : continuations lead = some ranges)
    (hrest : Fits ranges rest) (hc : assemble lead rest = c) : Encodes c lead rest := by
  obtain ⟨hnot, hascii, htails⟩ := continuations_spec hlead
  refine ⟨hbytes, ?_, hnot, ?_, ?_⟩
  · clear hbytes hlead hascii hc
    induction hrest with
    | nil => exact List.forall_mem_nil _
    | @cons range b _ _ hb _ ih =>
      obtain ⟨⟨hlow, hhigh⟩, htails⟩ := List.forall_mem_cons.mp htails
      obtain ⟨hlo, hhi⟩ := contains_iff.mp hb
      exact List.forall_mem_cons.mpr
        ⟨contains_iff.mpr ⟨Nat.le_trans hlow hlo, Nat.le_trans hhi hhigh⟩, ih htails⟩
  · rw [← hascii, ← List.length_eq_zero_iff, ← List.length_eq_zero_iff,
      List.Forall₂.length_eq hrest]
  · intro s
    rw [first_append s hlead hrest, hc]

/-- A byte is in a range if the number it stands for is. -/
lemma contains_byte {low high : UInt8} {n : Nat} (hn : n < 256)
    (h : low.toNat ≤ n ∧ n ≤ high.toNat) :
    (ByteRange.mk low high).contains (UInt8.ofNat n) = true := by
  rw [contains_iff, toNat_byte hn]
  exact h

/-- Six bits make a continuation byte. -/
lemma contains_tail (n : Nat) : tail.contains (UInt8.ofNat (n % 64 + 128)) = true := by
  refine contains_byte (by omega) ⟨Nat.le_add_left _ _, ?_⟩
  change _ ≤ 191
  omega

/-- A code point is the value of its character. -/
lemma toNat_ofNat {n : Nat} (h : n.isValidChar) : (Char.ofNat n).toNat = n := by
  rw [Char.ofNat, dif_pos h]
  rfl

/-- The character with the value of another is this one. -/
lemma ofNat_eq {c : Char} {n : Nat} (h : n = c.toNat) : Char.ofNat n = c := by
  rw [h, Char.ofNat_toNat]

/-- A character below 0x80 is one byte. -/
lemma encodes_one {c : Char} (h : c.toNat ≤ 0x7F) : Encodes c (UInt8.ofNat c.toNat) [] := by
  have hlead := toNat_byte (n := c.toNat) (by omega)
  have hranges : continuations (UInt8.ofNat c.toNat) = some [] := by
    rw [continuations_toNat, hlead, if_pos (by omega)]
  refine .intro ?_ hranges .nil ?_
  · change (if c.toNat ≤ 0x7F then _ else _) = _
    rw [if_pos h]
    rfl
  · change Char.ofNat (UInt8.ofNat c.toNat).toNat = c
    rw [hlead, Char.ofNat_toNat]

/-- A character below 0x800 is two bytes. -/
lemma encodes_two {c : Char} (hl : 0x7F < c.toNat) (hh : c.toNat ≤ 0x7FF) :
    Encodes c (UInt8.ofNat (c.toNat / 64 % 32 + 192)) [UInt8.ofNat (c.toNat % 64 + 128)] := by
  have hlead := toNat_byte (n := c.toNat / 64 % 32 + 192) (by omega)
  have hlast := toNat_byte (n := c.toNat % 64 + 128) (by omega)
  have hranges : continuations (UInt8.ofNat (c.toNat / 64 % 32 + 192)) = some [tail] := by
    rw [continuations_toNat, hlead, if_neg (by omega), if_neg (by omega), if_pos (by omega)]
  refine .intro ?_ hranges (.cons (contains_tail _) .nil) ?_
  · change (if c.toNat ≤ 0x7F then _ else if c.toNat ≤ 0x7FF then _ else _) = _
    rw [if_neg (by omega), if_pos hh]
    rfl
  · change Char.ofNat ((UInt8.ofNat (c.toNat / 64 % 32 + 192)).toNat % 32 * 64 +
      (UInt8.ofNat (c.toNat % 64 + 128)).toNat % 64) = c
    rw [hlead, hlast]
    exact ofNat_eq (by omega)

/-- The second byte of three is restricted behind `E0` and `ED`. -/
lemma fits_three {c : Char} (hl : 0x7FF < c.toNat) (hh : c.toNat ≤ 0xFFFF) :
    ∃ ranges, continuations (UInt8.ofNat (c.toNat / 4096 % 16 + 224)) = some ranges ∧
      Fits ranges [UInt8.ofNat (c.toNat / 64 % 64 + 128), UInt8.ofNat (c.toNat % 64 + 128)] := by
  have hlead := toNat_byte (n := c.toNat / 4096 % 16 + 224) (by omega)
  have hvalid : c.toNat < 0xD800 ∨ 0xDFFF < c.toNat ∧ c.toNat < 0x110000 := c.valid
  rw [continuations_toNat, hlead, if_neg (by omega), if_neg (by omega), if_neg (by omega)]
  -- Smaller numbers fit into two bytes, and the numbers of surrogates name no character.
  by_cases hE0 : c.toNat / 4096 % 16 + 224 = 0xE0
  · refine ⟨_, if_pos hE0, .cons (contains_byte (by omega) ?_) (.cons (contains_tail _) .nil)⟩
    change 160 ≤ _ ∧ _ ≤ 191
    omega
  · rw [if_neg hE0]
    by_cases hED : c.toNat / 4096 % 16 + 224 = 0xED
    · refine ⟨_, if_pos hED, .cons (contains_byte (by omega) ?_) (.cons (contains_tail _) .nil)⟩
      change 128 ≤ _ ∧ _ ≤ 159
      omega
    · rw [if_neg hED, if_pos (by omega)]
      exact ⟨_, rfl, .cons (contains_tail _) (.cons (contains_tail _) .nil)⟩

/-- A character below 0x10000 is three bytes. -/
lemma encodes_three {c : Char} (hl : 0x7FF < c.toNat) (hh : c.toNat ≤ 0xFFFF) :
    Encodes c (UInt8.ofNat (c.toNat / 4096 % 16 + 224))
      [UInt8.ofNat (c.toNat / 64 % 64 + 128), UInt8.ofNat (c.toNat % 64 + 128)] := by
  have hlead := toNat_byte (n := c.toNat / 4096 % 16 + 224) (by omega)
  have hnext := toNat_byte (n := c.toNat / 64 % 64 + 128) (by omega)
  have hlast := toNat_byte (n := c.toNat % 64 + 128) (by omega)
  obtain ⟨ranges, hranges, hfits⟩ := fits_three hl hh
  refine .intro ?_ hranges hfits ?_
  · change (if c.toNat ≤ 0x7F then _ else if c.toNat ≤ 0x7FF then _ else
      if c.toNat ≤ 0xFFFF then _ else _) = _
    rw [if_neg (by omega), if_neg (by omega), if_pos hh]
    rfl
  · change Char.ofNat (((UInt8.ofNat (c.toNat / 4096 % 16 + 224)).toNat % 16 * 64 +
      (UInt8.ofNat (c.toNat / 64 % 64 + 128)).toNat % 64) * 64 +
      (UInt8.ofNat (c.toNat % 64 + 128)).toNat % 64) = c
    rw [hlead, hnext, hlast]
    exact ofNat_eq (by omega)

/-- The second byte of four is restricted behind `F0` and `F4`. -/
lemma fits_four {c : Char} (hl : 0xFFFF < c.toNat) :
    ∃ ranges, continuations (UInt8.ofNat (c.toNat / 262144 % 8 + 240)) = some ranges ∧
      Fits ranges [UInt8.ofNat (c.toNat / 4096 % 64 + 128), UInt8.ofNat (c.toNat / 64 % 64 + 128),
        UInt8.ofNat (c.toNat % 64 + 128)] := by
  have hlead := toNat_byte (n := c.toNat / 262144 % 8 + 240) (by omega)
  have hvalid : c.toNat < 0xD800 ∨ 0xDFFF < c.toNat ∧ c.toNat < 0x110000 := c.valid
  have hmore : Fits [tail, tail]
      [UInt8.ofNat (c.toNat / 64 % 64 + 128), UInt8.ofNat (c.toNat % 64 + 128)] :=
    .cons (contains_tail _) (.cons (contains_tail _) .nil)
  rw [continuations_toNat, hlead, if_neg (by omega), if_neg (by omega), if_neg (by omega),
    if_neg (by omega), if_neg (by omega), if_neg (by omega)]
  -- Smaller numbers fit into three bytes, and no plane follows the seventeenth.
  by_cases hF0 : c.toNat / 262144 % 8 + 240 = 0xF0
  · refine ⟨_, if_pos hF0, .cons (contains_byte (by omega) ?_) hmore⟩
    change 144 ≤ _ ∧ _ ≤ 191
    omega
  · rw [if_neg hF0]
    by_cases hF4 : c.toNat / 262144 % 8 + 240 = 0xF4
    · rw [if_neg (by omega), if_pos hF4]
      refine ⟨_, rfl, .cons (contains_byte (by omega) ?_) hmore⟩
      change 128 ≤ _ ∧ _ ≤ 143
      omega
    · rw [if_pos (by omega)]
      exact ⟨_, rfl, .cons (contains_tail _) hmore⟩

/-- Any other character is four bytes. -/
lemma encodes_four {c : Char} (hl : 0xFFFF < c.toNat) :
    Encodes c (UInt8.ofNat (c.toNat / 262144 % 8 + 240))
      [UInt8.ofNat (c.toNat / 4096 % 64 + 128), UInt8.ofNat (c.toNat / 64 % 64 + 128),
        UInt8.ofNat (c.toNat % 64 + 128)] := by
  have hvalid : c.toNat < 0xD800 ∨ 0xDFFF < c.toNat ∧ c.toNat < 0x110000 := c.valid
  have hlead := toNat_byte (n := c.toNat / 262144 % 8 + 240) (by omega)
  have hsecond := toNat_byte (n := c.toNat / 4096 % 64 + 128) (by omega)
  have hthird := toNat_byte (n := c.toNat / 64 % 64 + 128) (by omega)
  have hlast := toNat_byte (n := c.toNat % 64 + 128) (by omega)
  obtain ⟨ranges, hranges, hfits⟩ := fits_four hl
  refine .intro ?_ hranges hfits ?_
  · change (if c.toNat ≤ 0x7F then _ else if c.toNat ≤ 0x7FF then _ else
      if c.toNat ≤ 0xFFFF then _ else _) = _
    rw [if_neg (by omega), if_neg (by omega), if_neg (by omega)]
    rfl
  · change Char.ofNat ((((UInt8.ofNat (c.toNat / 262144 % 8 + 240)).toNat % 8 * 64 +
      (UInt8.ofNat (c.toNat / 4096 % 64 + 128)).toNat % 64) * 64 +
      (UInt8.ofNat (c.toNat / 64 % 64 + 128)).toNat % 64) * 64 +
      (UInt8.ofNat (c.toNat % 64 + 128)).toNat % 64) = c
    rw [hlead, hsecond, hthird, hlast]
    exact ofNat_eq (by omega)

/-- Every character is encoded by a lead byte and those that it asks for. -/
lemma exists_encodes (c : Char) : ∃ lead rest, Encodes c lead rest := by
  by_cases h1 : c.toNat ≤ 0x7F
  · exact ⟨_, _, encodes_one h1⟩
  · by_cases h2 : c.toNat ≤ 0x7FF
    · exact ⟨_, _, encodes_two (by omega) h2⟩
    · by_cases h3 : c.toNat ≤ 0xFFFF
      · exact ⟨_, _, encodes_three (by omega) h3⟩
      · exact ⟨_, _, encodes_four (by omega)⟩

/-- Decoding inverts encoding. -/
lemma chars_encode (cs : List Char) : chars (encode cs) = cs := by
  induction cs with
  | nil => rw [encode_nil, chars]
  | cons c cs ih =>
    obtain ⟨lead, rest, h⟩ := exists_encodes c
    rw [encode_cons, h.bytes, List.cons_append, chars, h.read, ih]

/-- Text that is encoded decodes to itself. -/
lemma decode_encode (cs : List Char) : decode (encode cs) = String.ofList cs := by
  rw [decode, chars_encode]

/-- The last characters of a text have its last bytes. -/
lemma encode_suffix_encode {cs ds : List Char} (h : ds <:+ cs) : encode ds <:+ encode cs := by
  obtain ⟨bs, rfl⟩ := h
  exact ⟨encode bs, List.flatMap_append.symm⟩

/-- A tail of encoded characters starts with continuation bytes of a character that is cut, if at
all. -/
lemma suffix_encode {cs : List Char} {t : List UInt8} (h : t <:+ encode cs) :
    ∃ tails ds, t = tails ++ encode ds ∧ (∀ b ∈ tails, tail.contains b = true) ∧ ds <:+ cs := by
  induction cs with
  | nil => exact ⟨[], [], List.suffix_nil.mp h, List.forall_mem_nil _, List.suffix_rfl⟩
  | cons c cs ih =>
    obtain ⟨lead, rest, hc⟩ := exists_encodes c
    rw [encode_cons, hc.bytes, List.cons_append] at h
    obtain rfl | h := List.suffix_cons_iff.mp h
    · refine ⟨[], c :: cs, ?_, List.forall_mem_nil _, List.suffix_rfl⟩
      rw [List.nil_append, encode_cons, hc.bytes, List.cons_append]
    · have hcs : encode cs <:+ rest ++ encode cs := List.suffix_append rest (encode cs)
      obtain ht | ⟨tails, rfl⟩ := List.suffix_or_suffix_of_suffix h hcs
      · obtain ⟨tails, ds, ht, htails, hds⟩ := ih ht
        exact ⟨tails, ds, ht, htails, hds.trans (List.suffix_cons c cs)⟩
      · have hrest := List.suffix_append_self_iff.mp h
        exact ⟨tails, cs, rfl, fun b hb => hc.tails b (hrest.subset hb), List.suffix_cons c cs⟩

/-- Encoded characters that start with a byte start with the character that has it as lead byte. -/
lemma encode_eq_cons {cs : List Char} {b : UInt8} {s : List UInt8} (h : encode cs = b :: s) :
    ∃ c ds rest, cs = c :: ds ∧ Encodes c b rest ∧ s = rest ++ encode ds := by
  cases cs with
  | nil => cases h
  | cons c ds =>
    obtain ⟨lead, rest, hc⟩ := exists_encodes c
    rw [encode_cons, hc.bytes, List.cons_append] at h
    obtain ⟨rfl, rfl⟩ := List.cons.inj h
    exact ⟨c, ds, rest, rfl, hc, rfl⟩

/-- ASCII bytes are decoded to ASCII characters, one for each. -/
lemma decode_ascii {s : List UInt8} (h : ∀ b ∈ s, b.toNat < 0x80) :
    ∀ c ∈ (decode s).toList, c.toNat < 0x80 := by
  rw [decode, String.toList_ofList]
  induction s with
  | nil =>
    rw [chars]
    exact List.forall_mem_nil _
  | cons b s ih =>
    obtain ⟨hb, h⟩ := List.forall_mem_cons.mp h
    have hranges : continuations b = some [] := by rw [continuations_toNat, if_pos hb]
    have hfirst : first b s = (Char.ofNat b.toNat, s) := first_append s hranges .nil
    rw [chars, hfirst, List.forall_mem_cons]
    refine ⟨?_, ih h⟩
    rw [toNat_ofNat (.inl (by omega))]
    exact hb

/-- A continuation byte that follows no lead byte is replaced. -/
lemma decode_tail {b : UInt8} (s : List UInt8) (h : tail.contains b = true) :
    (decode (b :: s)).toList.head? = some replacement := by
  obtain ⟨hlow, hhigh⟩ := contains_iff.mp h
  change 128 ≤ b.toNat at hlow
  change b.toNat ≤ 191 at hhigh
  have hranges : continuations b = none := by
    rw [continuations_toNat, if_neg (by omega), if_pos (by omega)]
  have hfirst : first b s = (replacement, s) := by rw [first, hranges]
  rw [decode, String.toList_ofList, chars, hfirst, List.head?_cons]

/-- Bytes that spell characters. -/
def Valid (s : List UInt8) : Prop :=
  ∃ cs, encode cs = s

/-- The bytes of a text are whole characters. -/
lemma valid_bytes (text : String) : Valid (bytes text) :=
  ⟨text.toList, rfl⟩

/-- No bytes are whole characters. -/
lemma valid_nil : Valid [] :=
  ⟨[], rfl⟩

/-- Nothing is replaced in the text of bytes that spell characters. -/
lemma Valid.bytes_decode {s : List UInt8} (h : Valid s) : bytes (decode s) = s := by
  obtain ⟨cs, rfl⟩ := h
  rw [decode_encode, bytes, String.toList_ofList, encode]

/-- Bytes that start with a continuation byte spell no characters. -/
lemma not_valid_of_tail {b : UInt8} {s : List UInt8} (h : tail.contains b = true) :
    ¬ Valid (b :: s) := by
  rintro ⟨cs, hcs⟩
  obtain ⟨c, ds, rest, -, hc, -⟩ := encode_eq_cons hcs
  rw [hc.not_tail] at h
  cases h

/-- What stands behind the first byte of a character outside ASCII is not valid. -/
lemma not_valid_behind {b : UInt8} {s : List UInt8} (hs : Valid (b :: s)) (hb : 0x80 ≤ b.toNat) :
    ¬ Valid s := by
  obtain ⟨cs, hcs⟩ := hs
  obtain ⟨c, ds, rest, -, hc, rfl⟩ := encode_eq_cons hcs
  cases rest with
  | nil => exact absurd (hc.ascii.mp rfl) (Nat.not_lt.mpr hb)
  | cons d rest => exact not_valid_of_tail (hc.tails d List.mem_cons_self)

/-- An ASCII byte is no continuation byte. -/
lemma not_tail_of_ascii {b : UInt8} (h : b.toNat < 0x80) : tail.contains b = false := by
  rw [← Bool.not_eq_true, contains_iff]
  change ¬ (128 ≤ b.toNat ∧ _)
  omega

section Suffix

variable {s t : List UInt8} (hs : Valid s)
include hs

/-- A tail of valid bytes is valid if it starts with no continuation byte. -/
lemma Valid.suffix (ht : t <:+ s) (hhead : ∀ b ∈ t.head?, tail.contains b = false) : Valid t := by
  obtain ⟨cs, rfl⟩ := hs
  obtain ⟨tails, ds, rfl, htails, -⟩ := suffix_encode ht
  cases tails with
  | nil => exact ⟨ds, rfl⟩
  | cons b tails =>
    have hb := htails b List.mem_cons_self
    rw [hhead b rfl] at hb
    cases hb

/-- What stands behind an ASCII byte of valid bytes is valid. -/
lemma Valid.behind {b : UInt8} (ht : b :: t <:+ s) (hb : b.toNat < 0x80) : Valid t := by
  obtain ⟨cs, hcs⟩ := hs.suffix ht (by rintro _ ⟨⟩; exact not_tail_of_ascii hb)
  obtain ⟨c, ds, rest, -, hc, rfl⟩ := encode_eq_cons hcs
  rw [hc.ascii.mpr hb]
  exact ⟨ds, rfl⟩

/-- Bytes behind ASCII bytes are valid. -/
lemma Valid.drop (n : Nat) (h : ∀ b ∈ s.take n, b.toNat < 0x80) : Valid (s.drop n) := by
  induction n generalizing s with
  | zero => exact hs
  | succ n ih =>
    cases s with
    | nil => exact valid_nil
    | cons b s =>
      obtain ⟨hb, h⟩ := List.forall_mem_cons.mp h
      exact ih (hs.behind List.suffix_rfl hb) h

end Suffix

/-- A tail of encoded characters that is valid is a tail of the characters. -/
lemma Valid.exists_suffix {cs : List Char} {t : List UInt8} (ht : Valid t) (h : t <:+ encode cs) :
    ∃ ds, t = encode ds ∧ ds <:+ cs := by
  obtain ⟨tails, ds, rfl, htails, hds⟩ := suffix_encode h
  cases tails with
  | nil => exact ⟨ds, rfl, hds⟩
  | cons b tails => exact absurd ht (not_valid_of_tail (htails b List.mem_cons_self))

/-- The bytes of two texts are those of the first and then those of the second. -/
lemma encode_append (cs ds : List Char) : encode (cs ++ ds) = encode cs ++ encode ds :=
  List.flatMap_append

/-- A single character is encoded by its own bytes. -/
lemma encode_singleton (c : Char) : encode [c] = String.utf8EncodeChar c :=
  List.append_nil _

/-- An ASCII character is the byte of its value. -/
lemma bytes_ascii {c : Char} (h : c.toNat < 0x80) :
    String.utf8EncodeChar c = [UInt8.ofNat c.toNat] :=
  (encodes_one (Nat.le_of_lt_succ h)).bytes

/-- ASCII characters are the bytes of their values. -/
lemma encode_ascii {cs : List Char} (h : ∀ c ∈ cs, c.toNat < 0x80) :
    encode cs = cs.map fun c => UInt8.ofNat c.toNat := by
  induction cs with
  | nil => rfl
  | cons c cs ih =>
    obtain ⟨hc, h⟩ := List.forall_mem_cons.mp h
    rw [encode_cons, bytes_ascii hc, ih h]
    rfl

/-- ASCII bytes are the characters with their numbers. -/
lemma encode_ofNat {s : List UInt8} (h : ∀ b ∈ s, b.toNat < 0x80) :
    encode (s.map fun b => Char.ofNat b.toNat) = s := by
  induction s with
  | nil => rfl
  | cons b s ih =>
    obtain ⟨hb, h⟩ := List.forall_mem_cons.mp h
    have hnumber : (Char.ofNat b.toNat).toNat = b.toNat := toNat_ofNat (.inl (by omega))
    have hascii : (Char.ofNat b.toNat).toNat < 0x80 := by rwa [hnumber]
    rw [List.map_cons, encode_cons, bytes_ascii hascii, hnumber, UInt8.ofNat_toNat, ih h]
    rfl

/-- ASCII bytes are the bytes of what they decode to. -/
lemma bytes_decode_ascii {s : List UInt8} (h : ∀ b ∈ s, b.toNat < 0x80) : bytes (decode s) = s :=
  Valid.bytes_decode ⟨_, encode_ofNat h⟩

/-- A character outside of ASCII has a lead byte outside of ASCII. -/
lemma Encodes.wide {c : Char} {lead : UInt8} {rest : List UInt8} (h : Encodes c lead rest)
    (hc : 0x80 ≤ c.toNat) : 0x80 ≤ lead.toNat := by
  by_contra hlead
  have hrest : rest = [] := h.ascii.mpr (Nat.not_le.mp hlead)
  have hread := h.read []
  have hfirst : first lead [] = (Char.ofNat lead.toNat, []) := by
    have hranges : continuations lead = some [] := by rw [continuations_toNat, if_pos (by omega)]
    exact first_append [] hranges .nil
  rw [hrest, List.append_nil, hfirst] at hread
  have hvalue : c.toNat = lead.toNat := by
    rw [← (Prod.mk.inj hread).1]
    exact toNat_ofNat (.inl (by omega))
  omega

/-- What holds of the byte of an ASCII character and of all bytes that are not ASCII holds of the
bytes of a character. -/
lemma forall_bytes {p : UInt8 → Prop} {c : Char} (hascii : c.toNat < 0x80 → p (UInt8.ofNat c.toNat))
    (hwide : ∀ b : UInt8, 0x80 ≤ b.toNat → p b) : ∀ b ∈ String.utf8EncodeChar c, p b := by
  by_cases hc : c.toNat < 0x80
  · rw [bytes_ascii hc]
    exact List.forall_mem_singleton.mpr (hascii hc)
  · obtain ⟨lead, rest, h⟩ := exists_encodes c
    rw [h.bytes]
    refine List.forall_mem_cons.mpr ⟨hwide lead (h.wide (Nat.not_lt.mp hc)), fun b hb => ?_⟩
    exact hwide b (contains_iff.mp (h.tails b hb)).1

/-- The first byte of some characters is the first byte of the first of them. -/
lemma forall_head?_encode {p : UInt8 → Prop} {cs : List Char}
    (h : ∀ c ∈ cs.head?, ∀ b ∈ String.utf8EncodeChar c, p b) : ∀ b ∈ (encode cs).head?, p b := by
  cases cs with
  | nil => rintro _ ⟨⟩
  | cons c cs =>
    obtain ⟨lead, rest, hc⟩ := exists_encodes c
    rw [encode_cons, hc.bytes]
    rintro _ ⟨⟩
    exact h c rfl lead (hc.bytes ▸ List.mem_cons_self)

/-- An ASCII byte in front of some characters is a character in front of them. -/
lemma head?_encode_ne {cs : List Char} {d : Char} (hd : d.toNat < 0x80) (h : cs.head? ≠ some d) :
    (encode cs).head? ≠ some (UInt8.ofNat d.toNat) := by
  intro hhead
  have hne : ∀ b ∈ (encode cs).head?, b ≠ UInt8.ofNat d.toNat := by
    refine forall_head?_encode fun c hc => forall_bytes ?_ ?_
    · intro hascii heq
      have htoNat : c.toNat = d.toNat := by
        rw [← toNat_byte (Nat.lt_trans hascii (by decide)), heq,
          toNat_byte (Nat.lt_trans hd (by decide))]
      have hcd : c = d := by rw [← Char.ofNat_toNat c, htoNat, Char.ofNat_toNat]
      exact h (hcd ▸ hc)
    · rintro _ hb rfl
      rw [toNat_byte (Nat.lt_trans hd (by decide))] at hb
      exact absurd hd (Nat.not_lt.mpr hb)
  exact hne _ hhead rfl

/-- As many bytes as a lead byte asks for fit their ranges. -/
lemma fits_accepted {ranges : List ByteRange} {s : List UInt8}
    (h : (accepted ranges s).length = ranges.length) : Fits ranges (accepted ranges s) := by
  induction ranges generalizing s with
  | nil => exact .nil
  | cons range ranges ih =>
    cases s with
    | nil => cases h
    | cons b s =>
      rw [accepted] at h ⊢
      split
      · next hb =>
        rw [if_pos hb] at h
        exact .cons hb (ih (Nat.succ.inj h))
      · next hb =>
        rw [if_neg hb] at h
        cases h

/-- Further bits make a number no smaller than its first ones, moved to their place. -/
lemma le_foldl_bits (n : Nat) (bs : List UInt8) :
    n * 64 ^ bs.length ≤ bs.foldl (fun n b => n * 64 + b.toNat % 64) n := by
  induction bs generalizing n with
  | nil => simp
  | cons b bs ih =>
    calc n * 64 ^ (b :: bs).length = n * 64 * 64 ^ bs.length := by
          rw [List.length_cons, Nat.pow_succ', Nat.mul_assoc]
      _ ≤ (n * 64 + b.toNat % 64) * 64 ^ bs.length :=
          Nat.mul_le_mul_right _ (Nat.le_add_right _ _)
      _ ≤ (b :: bs).foldl (fun n b => n * 64 + b.toNat % 64) n := ih _

/-- The bits of a lead byte and of the byte behind it number no ASCII character. -/
lemma leadBits_spec {lead : UInt8} {range : ByteRange} {ranges : List ByteRange}
    (h : continuations lead = some (range :: ranges)) :
    0x80 ≤ (leadBits lead (ranges.length + 1) * 64 + range.low.toNat % 64) * 64 ^ ranges.length ∧
      0x80 ≤ range.low.toNat ∧ range.high.toNat ≤ 0xBF := by
  have hall : ∀ n < 256, ∀ ranges ∈ continuations (UInt8.ofNat n), ∀ range ∈ ranges.head?,
      0x80 ≤ (leadBits (UInt8.ofNat n) ranges.length * 64 + range.low.toNat % 64) *
        64 ^ (ranges.length - 1) := by
    decide +kernel
  have hbyte : UInt8.ofNat lead.toNat = lead := UInt8.ofNat_toNat
  have hbits := hall lead.toNat lead.toNat_lt _ (hbyte.symm ▸ h) range rfl
  rw [hbyte] at hbits
  exact ⟨hbits, (continuations_spec h).2.2 range List.mem_cons_self⟩

/-- A lead byte that asks for others numbers a character outside of ASCII. -/
lemma le_assemble {lead : UInt8} {range : ByteRange} {ranges : List ByteRange} {bs : List UInt8}
    (hlead : continuations lead = some (range :: ranges)) (h : Fits (range :: ranges) bs) :
    0x80 ≤ bs.foldl (fun n b => n * 64 + b.toNat % 64) (leadBits lead bs.length) := by
  obtain ⟨hbits, hlow, hhigh⟩ := leadBits_spec hlead
  have hlength := List.Forall₂.length_eq h
  obtain ⟨b, rest, hb, -, rfl⟩ := List.forall₂_cons_left_iff.mp h
  obtain ⟨hlo, hhi⟩ := contains_iff.mp hb
  have hmod : range.low.toNat % 64 ≤ b.toNat % 64 := by omega
  rw [← hlength]
  calc 0x80 ≤ (leadBits lead (ranges.length + 1) * 64 + range.low.toNat % 64) *
        64 ^ ranges.length := hbits
    _ ≤ (leadBits lead (ranges.length + 1) * 64 + b.toNat % 64) * 64 ^ rest.length := by
        rw [Nat.succ.inj hlength]
        exact Nat.mul_le_mul_right _ (Nat.add_le_add_left hmod _)
    _ ≤ _ := le_foldl_bits _ rest

end CssSyntax.Utf8
