import CssSyntax.Text.Written
import CssSyntax.Proofs.Boundary

/-!
# Reading what is written

A run reads every piece as it is written, each in one step (`gathers_written`), and so all pieces
one behind the other (`gathers_all`). Two of them may flow into each other: digits without a
terminator into what follows, and a carriage return into a line feed. What a run collects is the
text that the pieces stand for (`readRun_written`).
-/

namespace CssSyntax

open Byte Utf8

namespace Written

/-- Every piece is written with a character. -/
lemma text_ne_nil (w : Written) : w.text ≠ [] := by
  cases w <;> exact List.cons_ne_nil _ _

/-- What is in front of a piece sees only this piece. -/
lemma head?_text_append (w : Written) (s : List Char) : (w.text ++ s).head? = w.text.head? := by
  rw [List.head?_append, Option.or_of_isSome]
  exact List.isSome_head?.mpr (by simpa using w.text_ne_nil)

variable {ws : List Written} {s t : List Char}

/-- Digits end as well in front of a text that starts with the same character or with one that
continues no digits. -/
lemma EndsBefore.mono {w : Written} (h : w.EndsBefore s)
    (ht : ∀ c ∈ t.head?, c ∈ s.head? ∨ isBlankChar c = false ∧ isHexChar c = false) :
    w.EndsBefore t := by
  cases w with
  | numeric digits terminator =>
    cases terminator with
    | none =>
      intro c hc
      obtain hs | ⟨hblank, hhex⟩ := ht c hc
      · exact h c hs
      · exact ⟨hblank, fun _ => hhex⟩
    | some => trivial
  | plain | escaped | continuation => trivial

/-- Pieces end as well in front of other text that starts like this one or with no digit and no
blank. -/
lemma along_endsBefore (h : Along EndsBefore s ws)
    (ht : ∀ c ∈ t.head?, c ∈ s.head? ∨ isBlankChar c = false ∧ isHexChar c = false) :
    Along EndsBefore t ws := by
  induction ws with
  | nil => trivial
  | cons w ws ih =>
    obtain ⟨hw, hws⟩ := h
    refine ⟨hw.mono ?_, ih hws⟩
    cases ws with
    | nil => exact ht
    | cons v vs =>
      simp only [List.flatMap_cons, List.append_assoc, head?_text_append]
      exact fun c hc => .inl hc

/-- No carriage return meets a line feed if no piece starts with one. -/
lemma along_separate (h : ∀ w ∈ ws, w.text.head? ≠ some '\n')
    (hlast : ∀ w ∈ ws.getLast?, w.Separate s) : Along Separate s ws := by
  induction ws with
  | nil => trivial
  | cons w ws ih =>
    cases ws with
    | nil => exact ⟨hlast w rfl, trivial⟩
    | cons v vs =>
      rw [List.getLast?_cons_cons] at hlast
      obtain ⟨-, h⟩ := List.forall_mem_cons.mp h
      refine ⟨fun _ => ?_, ih h hlast⟩
      rw [List.flatMap_cons, List.append_assoc, head?_text_append]
      exact h v List.mem_cons_self

/-- No piece starts with a newline if none may stand for itself. -/
lemma head?_text_ne_newline {plain : Char → Bool} {w : Written} (hw : w.plainIn plain = true)
    (hplain : plain '\n' = false) : w.text.head? ≠ some '\n' := by
  cases w with
  | plain c =>
    rintro ⟨⟩
    exact Bool.false_ne_true (hplain.symm.trans hw)
  | escaped | numeric | continuation => rintro ⟨⟩

/-- Characters that stand for themselves have every relation that such characters have to any text.
-/
lemma along_plain {related : List Char → Written → Prop} {cs s : List Char}
    (h : ∀ c t, related t (.plain c)) : Along related s (cs.map .plain) := by
  induction cs with
  | nil => trivial
  | cons c cs ih => exact ⟨h c _, ih⟩

/-- Characters that stand for themselves are written as they are. -/
lemma flatMap_plain (cs : List Char) :
    (cs.map plain).flatMap text = cs ∧ (cs.map plain).flatMap value = cs := by
  rw [List.flatMap_map, List.flatMap_map]
  exact ⟨List.flatMap_singleton' cs, List.flatMap_singleton' cs⟩

end Written

namespace Lexer

section Classes

variable {c : Char}

/-- A character is ASCII if it is in lower case. -/
lemma ascii_of_toLower (h : c.toLower.toNat < 0x80) : c.toNat < 0x80 := by
  unfold Char.toLower at h
  split at h
  · next hupper => exact Nat.lt_of_le_of_lt (UInt32.le_iff_toNat_le.mp hupper.2) (by decide)
  · exact h

/-- Hexadecimal digits are ASCII characters. -/
lemma isHexChar_ascii (h : isHexChar c = true) : c.toNat < 0x80 := by
  have hall : ['0', '1', '2', '3', '4', '5', '6', '7', '8', '9', 'a', 'b', 'c', 'd', 'e', 'f'].all
      (·.toNat < 0x80) = true := by decide
  have hlower := List.all_eq_true.mp hall _ (List.isSome_idxOf?.mp h)
  exact ascii_of_toLower (of_decide_eq_true hlower)

/-- The byte of a hexadecimal digit has the value of the digit. -/
lemma hexValue?_byte (h : c.toNat < 0x80) :
    hexValue? (UInt8.ofNat c.toNat) = hexCharValue? c := by
  have hall : ∀ n < 0x80, hexValue? (UInt8.ofNat n) = hexCharValue? (Char.ofNat n) := by
    decide +kernel
  rw [hall c.toNat h, Char.ofNat_toNat]

/-- A class of bytes and a class of characters have the same ASCII characters. -/
def Matches (p : UInt8 → Bool) (q : Char → Bool) : Prop :=
  ∀ n < 0x80, p (UInt8.ofNat n) = q (Char.ofNat n)

/-- A class of bytes holds the byte of an ASCII character as the class of characters holds this. -/
lemma Matches.byte {p : UInt8 → Bool} {q : Char → Bool} (h : Matches p q) (hc : c.toNat < 0x80) :
    p (UInt8.ofNat c.toNat) = q c := by
  rw [h c.toNat hc, Char.ofNat_toNat]

/-- Hexadecimal digits are the same as bytes and as characters. -/
lemma matches_hex : Matches isHexDigit isHexChar := by
  unfold Matches
  decide +kernel

/-- Line breaks are the same as bytes and as characters. -/
lemma matches_newline : Matches isNewline isBreakChar := by
  unfold Matches
  decide +kernel

/-- Blanks are the same as bytes and as characters. -/
lemma matches_blank : Matches isBlank isBlankChar := by
  unfold Matches
  decide +kernel

/-- No byte of a character belongs to a class of ASCII bytes if the character does not. -/
lemma Matches.not_bytes {p : UInt8 → Bool} {q : Char → Bool} (h : Matches p q)
    (hp : ∀ {b}, p b = true → b.toNat < 0x80) (hc : q c = false) :
    ∀ b ∈ String.utf8EncodeChar c, p b = false := by
  apply forall_bytes
  · intro hascii
    rw [h.byte hascii, hc]
  · intro b hb
    exact Bool.eq_false_iff.mpr fun hx => absurd (hp hx) (Nat.not_lt.mpr hb)

end Classes

end Lexer

namespace HexDigits

open Lexer

/-- The digits of an escape are ASCII characters. -/
lemma ascii (digits : HexDigits) : ∀ c ∈ digits.chars, c.toNat < 0x80 :=
  fun c hc => isHexChar_ascii (List.all_eq_true.mp digits.hex c hc)

/-- The bytes of digits are digits. -/
lemma isHexDigit_encode (digits : HexDigits) :
    ∀ b ∈ encode digits.chars, isHexDigit b = true := by
  rw [encode_ascii digits.ascii]
  intro b hb
  obtain ⟨c, hc, rfl⟩ := List.mem_map.mp hb
  rw [matches_hex.byte (digits.ascii c hc)]
  exact List.all_eq_true.mp digits.hex c hc

/-- Each digit is one byte. -/
lemma length_encode (digits : HexDigits) :
    (encode digits.chars).length = digits.chars.length := by
  rw [encode_ascii digits.ascii, List.length_map]

/-- The bytes of digits write the number that the digits write. -/
lemma hexNumber_encode (digits : HexDigits) :
    hexNumber (encode digits.chars) = digits.number := by
  rw [encode_ascii digits.ascii, hexNumber, HexDigits.number, List.foldl_map]
  refine List.foldl_ext _ _ _ fun n c hc => ?_
  rw [hexValue?_byte (digits.ascii c hc), Nat.mul_comm]

/-- The number of some digits is encoded as the character that it names, if it names one. -/
lemma encode_number (digits : HexDigits) :
    (∃ c, CodePoint.encode digits.number = .ok c ∧ digits.char? = some c) ∨
      (∃ e, CodePoint.encode digits.number = .error e ∧ digits.char? = none) := by
  unfold CodePoint.encode CodePoint.encodeAt HexDigits.char? Nat.isValidChar
  split
  · exact .inr ⟨_, rfl, if_neg (by omega)⟩
  · split
    · exact .inl ⟨_, rfl, if_pos (by omega)⟩
    · exact .inr ⟨_, rfl, if_neg (by omega)⟩

end HexDigits

namespace Lexer

/-- The leading digits of some bytes, if no seventh follows six of them. -/
lemma escapeDigits_append {digits s : List UInt8} (hhex : ∀ b ∈ digits, isHexDigit b = true)
    (hle : digits.length ≤ 6)
    (hend : digits.length < 6 → ∀ b ∈ s.head?, isHexDigit b = false) :
    escapeDigits (digits ++ s) = digits := by
  have hstop : (s.take (6 - digits.length)).takeWhile isHexDigit = [] := by
    by_cases hlt : digits.length < 6
    · cases s with
      | nil => rw [List.take_nil, List.takeWhile_nil]
      | cons b s =>
        obtain ⟨n, hn⟩ := Nat.exists_eq_add_of_lt hlt
        rw [show 6 - digits.length = n + 1 by omega, List.take_succ_cons]
        exact List.takeWhile_cons_of_neg (Bool.eq_false_iff.mp (hend hlt b rfl))
    · rw [show 6 - digits.length = 0 by omega, List.take_zero, List.takeWhile_nil]
  rw [escapeDigits, List.take_append, List.take_of_length_le hle,
    List.takeWhile_append_of_pos hhex, hstop, List.append_nil]

/-- A carriage return is a line break of its own unless a line feed follows. -/
lemma startsCrlf_return {s : List UInt8} (h : s.head? ≠ some 0x0A) :
    startsCrlf (0x0D :: s) = false := by
  by_contra hc
  obtain ⟨t, ht⟩ := List.isPrefixOf_iff_prefix.mp (Bool.not_eq_false _ ▸ hc)
  cases ht
  exact h rfl

/-- Where no blank stands there is no terminator. -/
lemma skipTerminator_of_not_blank {s : List UInt8} (h : ∀ b ∈ s.head?, isBlank b = false) :
    skipTerminator s = s := by
  cases s with
  | nil => rfl
  | cons b s =>
    have hb := h b rfl
    have hcrlf : startsCrlf (b :: s) = false := by
      by_contra hc
      obtain ⟨t, ht⟩ := List.isPrefixOf_iff_prefix.mp (Bool.not_eq_false _ ▸ hc)
      cases ht
      cases hb
    rw [skipTerminator, hcrlf]
    simp [hb]

/-- A terminator is skipped as a whole, unless it is the first half of a longer one. -/
lemma skipTerminator_append {terminator : Terminator} {s : List UInt8}
    (h : terminator = .lineBreak .cr → s.head? ≠ some 0x0A) :
    skipTerminator (encode terminator.text ++ s) = s := by
  cases terminator with
  | lineBreak lineBreak =>
    cases lineBreak with
    | cr =>
      change skipTerminator (0x0D :: s) = s
      rw [skipTerminator, startsCrlf_return (h rfl)]
      rfl
    | crlf | lf | ff => rfl
  | space | tab => rfl

/-- An escape of digits takes their terminator and contributes the character they name, if any. -/
lemma readEscape_digits (joinsLines : Bool) (digits : HexDigits) {s : List UInt8}
    (hend : digits.chars.length < 6 → ∀ b ∈ s.head?, isHexDigit b = false) :
    (readEscape joinsLines (encode digits.chars ++ s)).2 = skipTerminator s ∧
      (readEscape joinsLines (encode digits.chars ++ s)).1.bytes = encode digits.char?.toList := by
  have hhex := digits.isHexDigit_encode
  have hlength := digits.length_encode
  have hdigits : escapeDigits (encode digits.chars ++ s) = encode digits.chars :=
    escapeDigits_append hhex (hlength ▸ digits.le_six) (hlength ▸ hend)
  have hdrop : (encode digits.chars ++ s).drop (encode digits.chars).length = s := List.drop_left
  have hnumber := digits.hexNumber_encode
  cases hcons : encode digits.chars with
  | nil =>
    rw [hcons, eq_comm, List.length_nil, List.length_eq_zero_iff] at hlength
    exact absurd hlength digits.ne_nil
  | cons b t =>
    rw [hcons] at hhex hdigits hdrop hnumber
    rw [List.cons_append] at hdigits hdrop ⊢
    rw [readEscape, if_pos (hhex b List.mem_cons_self)]
    dsimp only
    rw [hdigits, hdrop, hnumber]
    obtain ⟨c, hc, hchar⟩ | ⟨e, he, hchar⟩ := digits.encode_number
    · rw [hc, hchar]
      exact ⟨rfl, (List.append_nil _).symm⟩
    · rw [he, hchar]
      exact ⟨rfl, rfl⟩

/-- The bytes that a run is made of: backslashes, the given ASCII characters and all characters
outside ASCII. -/
structure ReadsPlain (belongs : UInt8 → Bool) (plain : Char → Bool) : Prop where
  wide : Wide belongs
  ascii : Matches belongs fun c => plain c || c == '\\'
  raw : plain '\\' = false

/-- What a run cannot read ends it. -/
lemma ReadsPlain.not_bytes {belongs : UInt8 → Bool} {plain : Char → Bool}
    (h : ReadsPlain belongs plain) {c : Char} (hascii : c.toNat < 0x80) (hc : plain c = false)
    (hraw : c ≠ '\\') : ∀ b ∈ String.utf8EncodeChar c, belongs b = false := by
  rw [bytes_ascii hascii, List.forall_mem_singleton, h.ascii.byte hascii]
  simp [hc, hraw]

/-- Reading a run takes the bytes in front of `t` off `s`, which contribute the given ones. -/
structure Gathers (belongs : UInt8 → Bool) (joinsLines : Bool) (s t bytes : List UInt8) : Prop where
  bytes : (readRun belongs joinsLines s).bytes = bytes ++ (readRun belongs joinsLines t).bytes
  rest : (readRun belongs joinsLines s).rest = (readRun belongs joinsLines t).rest

section Gathers

variable {belongs : UInt8 → Bool} {joinsLines : Bool} {s t u bytes more : List UInt8}

/-- A run gathers nothing before it starts. -/
lemma Gathers.refl (s : List UInt8) : Gathers belongs joinsLines s s [] :=
  ⟨rfl, rfl⟩

/-- What a run gathers in two parts it gathers as a whole. -/
lemma Gathers.trans (h : Gathers belongs joinsLines s t bytes)
    (hmore : Gathers belongs joinsLines t u more) :
    Gathers belongs joinsLines s u (bytes ++ more) := by
  refine ⟨?_, h.rest.trans hmore.rest⟩
  rw [h.bytes, hmore.bytes, List.append_assoc]

/-- What a run contributes that ends behind the gathered bytes. -/
lemma Gathers.run (h : Gathers belongs joinsLines s t bytes)
    (hstop : ∀ b ∈ t.head?, belongs b = false) :
    (readRun belongs joinsLines s).bytes = bytes ∧ (readRun belongs joinsLines s).rest = t := by
  have hend : readRun belongs joinsLines t = ⟨[], t⟩ := by
    cases t with
    | nil => rw [readRun]
    | cons b t => rw [readRun, if_neg (Bool.eq_false_iff.mp (hstop b rfl))]
  rw [h.bytes, h.rest, hend]
  exact ⟨List.append_nil bytes, rfl⟩

/-- A run gathers the first piece and goes on behind it. -/
lemma gathers_piece (joinsLines : Bool) {b : UInt8} (s : List UInt8) (hb : belongs b = true) :
    Gathers belongs joinsLines (b :: s) (readPiece joinsLines b s).2
      (readPiece joinsLines b s).1.bytes := by
  constructor
  · rw [readRun, if_pos hb]
    rfl
  · rw [readRun, if_pos hb]

/-- Bytes that stand for themselves. -/
lemma gathers_raw (h : ∀ b ∈ bytes, belongs b = true ∧ b ≠ backslash) :
    Gathers belongs joinsLines (bytes ++ s) s bytes := by
  induction bytes with
  | nil => exact .refl s
  | cons b bytes ih =>
    obtain ⟨⟨hb, hraw⟩, h⟩ := List.forall_mem_cons.mp h
    have hpiece : Gathers belongs joinsLines (b :: (bytes ++ s)) (bytes ++ s) [b] := by
      have hread := gathers_piece joinsLines (bytes ++ s) hb
      rwa [readPiece, if_neg hraw] at hread
    exact hpiece.trans (ih h)

end Gathers

section Written

open Written

variable {belongs : UInt8 → Bool} {plain : Char → Bool} (h : ReadsPlain belongs plain)
  (joinsLines : Bool)
include h

/-- A backslash belongs to every run that reads plain characters. -/
lemma ReadsPlain.backslash : belongs backslash = true :=
  (h.ascii 0x5C (by decide)).trans (Bool.or_true _)

/-- A run gathers what an escape stands for. -/
lemma gathers_escape (s : List UInt8) : Gathers belongs joinsLines (backslash :: s)
    (readEscape joinsLines s).2 (readEscape joinsLines s).1.bytes := by
  have hread := gathers_piece joinsLines s h.backslash
  rwa [readPiece, if_pos rfl] at hread

/-- A run gathers a character that stands for itself. -/
lemma gathers_plain {c : Char} (hc : plain c = true) (s : List UInt8) :
    Gathers belongs joinsLines (String.utf8EncodeChar c ++ s) s (String.utf8EncodeChar c) := by
  apply gathers_raw
  apply forall_bytes
  · intro hascii
    have hbelongs := h.ascii.byte hascii
    rw [hc, Bool.true_or] at hbelongs
    refine ⟨hbelongs, fun hb => ?_⟩
    have heq : c = '\\' := by
      rw [← Char.ofNat_toNat c, ← toNat_byte (Nat.lt_trans hascii (by decide)), hb]
      rfl
    rw [heq, h.raw] at hc
    cases hc
  · intro b hb
    refine ⟨h.wide b hb, ?_⟩
    rintro rfl
    exact absurd hb (by decide)

/-- A backslash takes the first byte of the character behind it, and the others follow. -/
lemma gathers_escaped {c : Char} (hhex : isHexChar c = false) (hnewline : isBreakChar c = false)
    (s : List UInt8) :
    Gathers belongs joinsLines (backslash :: (String.utf8EncodeChar c ++ s)) s
      (String.utf8EncodeChar c) := by
  have hhex := matches_hex.not_bytes isHexDigit_ascii hhex
  have hnewline := matches_newline.not_bytes isNewline_ascii hnewline
  obtain ⟨lead, rest, hc⟩ := exists_encodes c
  rw [hc.bytes] at hhex hnewline ⊢
  have hread : readEscape joinsLines (lead :: (rest ++ s)) = (.escaped lead, rest ++ s) := by
    rw [readEscape, if_neg (Bool.eq_false_iff.mp (hhex lead List.mem_cons_self)),
      if_neg (Bool.eq_false_iff.mp (hnewline lead List.mem_cons_self))]
  have hescape := gathers_escape h joinsLines (lead :: (rest ++ s))
  rw [hread] at hescape
  -- The bytes behind the first stand for themselves, since none of them is ASCII.
  refine hescape.trans (gathers_raw fun b hb => ?_)
  have hwide : 0x80 ≤ b.toNat := (contains_iff.mp (hc.tails b hb)).1
  refine ⟨h.wide b hwide, ?_⟩
  rintro rfl
  exact absurd hwide (by decide)

/-- Digits contribute the character that they name, and the blank behind them ends them. -/
lemma gathers_digits (digits : HexDigits) {s : List UInt8}
    (hend : digits.chars.length < 6 → ∀ b ∈ s.head?, isHexDigit b = false) :
    Gathers belongs joinsLines (backslash :: (encode digits.chars ++ s)) (skipTerminator s)
      (encode digits.char?.toList) := by
  have hread := readEscape_digits joinsLines digits hend
  have hescape := gathers_escape h joinsLines (encode digits.chars ++ s)
  rwa [hread.1, hread.2] at hescape

/-- A line break behind a backslash contributes nothing. -/
lemma gathers_continuation {lineBreak : LineBreak} {s : List UInt8}
    (hs : lineBreak = .cr → s.head? ≠ some 0x0A) :
    Gathers belongs true (backslash :: (encode lineBreak.text ++ s)) s [] := by
  have hread : readEscape true (encode lineBreak.text ++ s) = (.continuation, s) := by
    cases lineBreak with
    | cr =>
      change readEscape true (0x0D :: s) = _
      rw [readEscape, if_neg (by decide), if_pos (by decide), startsCrlf_return (hs rfl)]
      rfl
    | crlf | lf | ff => rfl
  have hescape := gathers_escape h true (encode lineBreak.text ++ s)
  rwa [hread] at hescape

omit h in
/-- A backslash is a single byte. -/
lemma encode_backslash (cs : List Char) : encode ('\\' :: cs) = backslash :: encode cs := rfl

/-- A piece is read as it is written, and contributes what it stands for. -/
lemma gathers_written {w : Written} {s : List Char} (hplain : w.plainIn plain = true)
    (hcontinuation : w.isContinuation = true → joinsLines = true) (hends : w.EndsBefore s)
    (hseparate : w.Separate s) :
    Gathers belongs joinsLines (encode (w.text ++ s)) (encode s) (encode w.value) := by
  rw [encode_append]
  cases w with
  | plain c =>
    rw [Written.text, Written.value, encode_singleton]
    exact gathers_plain h joinsLines hplain (encode s)
  | escaped c hhex hnewline =>
    rw [Written.text, Written.value, encode_backslash, encode_singleton, List.cons_append]
    exact gathers_escaped h joinsLines hhex hnewline (encode s)
  | numeric digits terminator =>
    rw [Written.text, encode_backslash, encode_append, List.cons_append, List.append_assoc]
    cases terminator with
    | none =>
      -- nothing ends the digits but the text behind them, which must not be a blank
      have hblank : skipTerminator (encode s) = encode s :=
        skipTerminator_of_not_blank <| forall_head?_encode fun c hc =>
          matches_blank.not_bytes isBlank_ascii (hends c hc).1
      have hread := gathers_digits h joinsLines digits fun hlt =>
        forall_head?_encode fun c hc => matches_hex.not_bytes isHexDigit_ascii ((hends c hc).2 hlt)
      rwa [hblank] at hread
    | some terminator =>
      have hread := gathers_digits h joinsLines digits
        (s := encode terminator.text ++ encode s) fun _ => by
          cases terminator with
          | lineBreak lineBreak => cases lineBreak <;> rintro _ ⟨⟩ <;> rfl
          | space | tab => rintro _ ⟨⟩; rfl
      rwa [skipTerminator_append] at hread
      -- a carriage return would take a line feed behind it along
      rintro rfl
      exact head?_encode_ne (d := '\n') (by decide) (hseparate rfl)
  | continuation lineBreak =>
    cases hcontinuation rfl
    rw [Written.text, encode_backslash, List.cons_append]
    apply gathers_continuation h
    rintro rfl
    exact head?_encode_ne (d := '\n') (by decide) (hseparate rfl)

/-- Pieces are read one behind the other. -/
lemma gathers_all {ws : List Written} {s : List Char}
    (hplain : ∀ w ∈ ws, w.plainIn plain = true)
    (hcontinuation : ∀ w ∈ ws, w.isContinuation = true → joinsLines = true)
    (hends : Along EndsBefore s ws) (hseparate : Along Separate s ws) :
    Gathers belongs joinsLines (encode (ws.flatMap text ++ s)) (encode s)
      (encode (ws.flatMap value)) := by
  induction ws with
  | nil => exact .refl _
  | cons w ws ih =>
    obtain ⟨hw, hplain⟩ := List.forall_mem_cons.mp hplain
    obtain ⟨hc, hcontinuation⟩ := List.forall_mem_cons.mp hcontinuation
    rw [List.flatMap_cons, List.append_assoc, List.flatMap_cons, encode_append w.value]
    exact (gathers_written h joinsLines hw hc hends.1 hseparate.1).trans
      (ih hplain hcontinuation hends.2 hseparate.2)

/-- A run that ends behind some pieces collects what they stand for. -/
lemma readRun_written {ws : List Written} {s : List Char}
    (hplain : ∀ w ∈ ws, w.plainIn plain = true)
    (hcontinuation : ∀ w ∈ ws, w.isContinuation = true → joinsLines = true)
    (hends : Along EndsBefore s ws) (hseparate : Along Separate s ws)
    (hstop : ∀ b ∈ (encode s).head?, belongs b = false) :
    (readRun belongs joinsLines (encode (ws.flatMap text ++ s))).bytes = encode (ws.flatMap value) ∧
      (readRun belongs joinsLines (encode (ws.flatMap text ++ s))).rest = encode s :=
  (gathers_all h joinsLines hplain hcontinuation hends hseparate).run hstop

end Written

/-- The text of a run that has collected the bytes of some characters is made of these. -/
lemma Run.text_of_bytes {run : Run} {cs : List Char} (h : run.bytes = encode cs) :
    run.text = String.ofList cs := by
  rw [Run.text, h, decode_encode]

end Lexer

open Lexer

/-- A scanner reads a token of the given kind, which starts where the scanner stands and takes the
given number of bytes. -/
structure Scanner.Yields (sc : Scanner) (kind : Kind) (taken : Nat) : Prop where
  token : sc.next.token = ⟨kind, sc.lines.locate sc.read⟩
  source : sc.next.source = { sc with read := sc.read + taken }

namespace Scanner

variable {sc : Scanner} {lexeme : Lexeme} (hne : sc.rest ≠ [])
  (hstart : tokenStart sc.rest = sc.rest) (hcut : cut sc.rest = lexeme)
include hne hstart hcut

/-- A token that leaves the scanner a number of bytes further has taken them. -/
lemma yields_of_behind {n : Nat} (hread : (sc.behind lexeme).read = sc.read + n) :
    sc.Yields lexeme.kind n := by
  have hlength : sc.rest.length = sc.text.length - sc.read := List.length_drop
  have hpos := List.length_pos_iff.mpr hne
  constructor
  · rw [next, scan, locationBefore, hstart, hcut, hlength, Nat.sub_sub_self (by omega)]
  · rw [← hread, next, scan, hstart, hcut]
    rfl

/-- A token that does not meet the end of the input takes all but what it leaves. -/
lemma yields_of_rest {taken s : List UInt8} (hrest : sc.rest = taken ++ s) (hs : lexeme.rest = s)
    (hended : lexeme.ended = false) : sc.Yields lexeme.kind taken.length := by
  have hlength : sc.rest.length = sc.text.length - sc.read := List.length_drop
  have hpos := List.length_pos_iff.mpr hne
  refine yields_of_behind hne hstart hcut ?_
  rw [behind, hended, hs]
  change sc.text.length - s.length = _
  rw [hrest, List.length_append] at hlength hpos
  omega

/-- A token that meets the end of the input takes this end as well. -/
lemma yields_of_ended (hended : lexeme.ended = true) :
    sc.Yields lexeme.kind (sc.rest.length + 1) := by
  have hlength : sc.rest.length = sc.text.length - sc.read := List.length_drop
  have hpos := List.length_pos_iff.mpr hne
  refine yields_of_behind hne hstart hcut ?_
  rw [behind, hended]
  change sc.text.length + 1 = _
  omega

end Scanner

end CssSyntax
