import Mathlib.Data.List.TakeWhile
import CssSyntax.Lexer.Name
import CssSyntax.Proofs.Utf8

/-!
# Runs and characters

A run takes its bytes one by one, and an escape takes a single byte of a character outside ASCII.
The bytes behind it belong to every run, so nothing is torn apart: a piece leaves the continuation
bytes of its character to the pieces behind it (`readPiece_takes`), and a run that starts on a
boundary collects whole characters (`faithful_readRun`) and ends on a boundary (`valid_readRun`).
-/

namespace CssSyntax.Lexer

open Byte Utf8

/-- A character stands among others, or an escape between them names it. -/
def Spells (cs : List Char) (c : Char) : Prop :=
  c ∈ cs ∨ ∃ t, backslash :: t <:+ encode cs ∧ hexNumber (escapeDigits t) = c.toNat

/-- What some characters spell is spelled by more of them in front too. -/
lemma Spells.of_suffix {cs ds : List Char} {c : Char} (h : Spells ds c) (hs : ds <:+ cs) :
    Spells cs c := by
  obtain h | ⟨t, ht, hc⟩ := h
  · exact .inl (hs.subset h)
  · exact .inr ⟨t, ht.trans (encode_suffix_encode hs), hc⟩

/-- Blanks are ASCII bytes. -/
lemma isBlank_ascii {b : UInt8} (h : isBlank b = true) : b.toNat < 0x80 := by
  simp only [isBlank, isNewline, Bool.or_eq_true, beq_iff_eq] at h
  obtain (rfl | rfl) | (rfl | rfl) | rfl := h <;> decide

/-- Hexadecimal digits are ASCII bytes. -/
lemma isHexDigit_ascii {b : UInt8} (h : isHexDigit b = true) : b.toNat < 0x80 := by
  simp only [isHexDigit, hexValue?, isDigit, Bool.and_eq_true, decide_eq_true_eq,
    UInt8.le_iff_toNat_le] at h
  split_ifs at h with h1 h2 h3
  · exact Nat.lt_of_le_of_lt h1.2 (by decide)
  · exact Nat.lt_of_le_of_lt h2.2 (by decide)
  · exact Nat.lt_of_le_of_lt h3.2 (by decide)
  · cases h

/-- A number that names a character is its code point. -/
lemma toNat_of_encode {n : Nat} {c : Char} (h : CodePoint.encode n = .ok c) : n = c.toNat := by
  unfold CodePoint.encode CodePoint.encodeAt at h
  split at h
  · cases h
  · split at h
    · next hs hn =>
      cases h
      have hvalid : n.isValidChar := by
        unfold Nat.isValidChar
        omega
      exact (toNat_ofNat hvalid).symm
    · cases h

/-- Behind a line break of two bytes there are whole characters. -/
lemma valid_behind_crlf {s : List UInt8} (hs : Valid s) (h : startsCrlf s = true) :
    Valid (s.drop 2) := by
  obtain ⟨t, rfl⟩ := List.isPrefixOf_iff_prefix.mp h
  exact hs.drop 2 (by simp)

/-- The blank behind a numeric escape is ASCII. -/
lemma valid_skipTerminator {s : List UInt8} (hs : Valid s) : Valid (skipTerminator s) := by
  unfold skipTerminator
  split
  · next h => exact valid_behind_crlf hs h
  · split
    · next h =>
      cases s with
      | nil => exact valid_nil
      | cons b s => exact hs.behind List.suffix_rfl (isBlank_ascii h)
    · exact hs

/-- Behind the digits of an escape and their terminator there are whole characters. -/
lemma valid_behind_digits {s : List UInt8} (hs : Valid s) :
    Valid (skipTerminator (s.drop (escapeDigits s).length)) := by
  apply valid_skipTerminator
  apply hs.drop
  have hdigits : escapeDigits s <+: s := (List.takeWhile_prefix _).trans (List.take_prefix 6 s)
  rw [← List.prefix_iff_eq_take.mp hdigits]
  intro b hb
  exact isHexDigit_ascii (List.mem_takeWhile_imp hb)

/-- What reading a piece takes off continuation bytes `tails` and characters `cs`: it leaves
`rest` and `ds`, and contributes what is missing of `tails` and the characters `front`. -/
structure Takes (tails : List UInt8) (cs : List Char) (read : Piece × List UInt8)
    (rest : List UInt8) (ds front : List Char) : Prop where
  left : read.2 = rest ++ encode ds
  leftTails : ∀ b ∈ rest, tail.contains b = true
  suffix : ds <:+ cs
  bytes : ∀ es, read.1.bytes ++ (rest ++ encode es) = tails ++ encode (front ++ es)
  spelled : ∀ c ∈ front, Spells cs c

/-- A piece that contributes whole characters and leaves whole characters. -/
lemma Takes.of_valid {cs : List Char} {t : List UInt8} (piece : Piece) (front : List Char)
    (ht : Valid t) (hsuffix : t <:+ encode cs) (hbytes : piece.bytes = encode front)
    (hspells : ∀ c ∈ front, Spells cs c) :
    ∃ rest ds front, Takes [] cs (piece, t) rest ds front := by
  obtain ⟨ds, rfl, hds⟩ := ht.exists_suffix hsuffix
  refine ⟨[], ds, front, rfl, List.forall_mem_nil _, hds, ?_, hspells⟩
  intro es
  simp [hbytes, encode]

/-- A byte that stands for itself takes the rest of its character along. -/
lemma Takes.of_lead {cs ds : List Char} {c : Char} {piece : Piece} {lead : UInt8}
    {rest : List UInt8} (hc : Encodes c lead rest) (hsuffix : c :: ds <:+ cs)
    (hbytes : piece.bytes = [lead]) : Takes [] cs (piece, rest ++ encode ds) rest ds [c] := by
  refine ⟨rfl, hc.tails, (List.suffix_cons c ds).trans hsuffix, ?_, ?_⟩
  · intro es
    simp [hbytes, hc.bytes]
  · rw [List.forall_mem_singleton]
    exact .inl (hsuffix.subset List.mem_cons_self)

/-- An escape takes the character behind its backslash, or the first byte of it. -/
lemma readEscape_takes (joinsLines : Bool) {cs : List Char} {s : List UInt8}
    (hs : encode cs = backslash :: s) :
    ∃ rest ds front, Takes [] cs (readEscape joinsLines s) rest ds front := by
  have hescape : backslash :: s <:+ encode cs := hs ▸ List.suffix_rfl
  have hvalid : Valid s := Valid.behind ⟨cs, rfl⟩ hescape (by decide)
  have hsuffix : s <:+ encode cs := (List.suffix_cons _ s).trans hescape
  cases s with
  | nil => exact Takes.of_valid .continuation [] hvalid hsuffix rfl (List.forall_mem_nil _)
  | cons b t =>
    rw [readEscape]
    split
    · have hleft := valid_behind_digits hvalid
      have hrest := ((skipTerminator_suffix _).trans
        (List.drop_suffix (escapeDigits (b :: t)).length (b :: t))).trans hsuffix
      dsimp only
      split
      · next d hd =>
        refine Takes.of_valid (.codePoint d) [d] hleft hrest (List.append_nil _).symm ?_
        exact List.forall_mem_singleton.mpr (.inr ⟨_, hescape, toNat_of_encode hd⟩)
      · exact Takes.of_valid (.dropped _) [] hleft hrest rfl (List.forall_mem_nil _)
    · split
      · next hnewline =>
        have hascii : b.toNat < 0x80 := isBlank_ascii (by simp [isBlank, hnewline])
        split
        · next hcrlf =>
          have hdrop := valid_behind_crlf hvalid (Bool.and_eq_true _ _ ▸ hcrlf).2
          exact Takes.of_valid .continuation [] hdrop ((List.drop_suffix 2 _).trans hsuffix) rfl
            (List.forall_mem_nil _)
        · exact Takes.of_valid .continuation [] (hvalid.behind List.suffix_rfl hascii)
            ((List.suffix_cons b t).trans hsuffix) rfl (List.forall_mem_nil _)
      -- Only the first byte is escaped; the others are left to the pieces behind this one.
      · obtain ⟨ds, hds, hchars⟩ := hvalid.exists_suffix hsuffix
        obtain ⟨c, es, rest, rfl, hc, rfl⟩ := encode_eq_cons hds.symm
        exact ⟨_, _, _, .of_lead hc hchars rfl⟩

/-- A piece takes what is left of a character, or the next one of which it may leave bytes. -/
lemma readPiece_takes (joinsLines : Bool) {tails : List UInt8} {cs : List Char} {b : UInt8}
    {s : List UInt8} (hs : b :: s = tails ++ encode cs)
    (htails : ∀ b ∈ tails, tail.contains b = true) :
    ∃ rest ds front, Takes tails cs (readPiece joinsLines b s) rest ds front := by
  cases tails with
  | cons t tails =>
    obtain ⟨rfl, rfl⟩ := List.cons.inj hs
    obtain ⟨hb, htails⟩ := List.forall_mem_cons.mp htails
    have hraw : b ≠ backslash := by
      rintro rfl
      cases hb
    rw [readPiece, if_neg hraw]
    exact ⟨tails, cs, [], rfl, htails, List.suffix_rfl, fun _ => rfl, List.forall_mem_nil _⟩
  | nil =>
    rw [readPiece]
    split
    · next hb =>
      subst hb
      exact readEscape_takes joinsLines hs.symm
    · obtain ⟨c, ds, rest, rfl, hc, rfl⟩ := encode_eq_cons hs.symm
      exact ⟨_, _, _, .of_lead hc List.suffix_rfl rfl⟩

/-- The classes of bytes that runs are made of hold every byte of a character outside ASCII. -/
def Wide (belongs : UInt8 → Bool) : Prop :=
  ∀ b : UInt8, 0x80 ≤ b.toNat → belongs b = true

/-- What does not belong to a wide class is an ASCII byte. -/
lemma Wide.ascii {belongs : UInt8 → Bool} {b : UInt8} (hwide : Wide belongs)
    (h : belongs b = false) : b.toNat < 0x80 := by
  by_contra hb
  rw [hwide b (Nat.not_lt.mp hb)] at h
  cases h

/-- A run that starts inside a character collects the rest of it and whole characters behind it. -/
lemma readRun_bytes {belongs : UInt8 → Bool} (joinsLines : Bool) {s tails : List UInt8}
    {cs : List Char} (hwide : Wide belongs) (hs : s = tails ++ encode cs)
    (htails : ∀ b ∈ tails, tail.contains b = true) :
    ∃ ds, (readRun belongs joinsLines s).bytes = tails ++ encode ds ∧ ∀ d ∈ ds, Spells cs d := by
  fun_induction readRun belongs joinsLines s generalizing tails cs with
  | case1 =>
    obtain ⟨rfl, -⟩ := List.append_eq_nil_iff.mp hs.symm
    exact ⟨[], rfl, List.forall_mem_nil _⟩
  | case2 b s _ _ =>
    rename_i ih
    obtain ⟨rest, ds, front, h⟩ := readPiece_takes joinsLines hs htails
    obtain ⟨es, hbytes, hes⟩ := ih h.left h.leftTails
    refine ⟨front ++ es, ?_, ?_⟩
    · rw [← h.bytes, ← hbytes]
      rfl
    · intro d hd
      obtain hd | hd := List.mem_append.mp hd
      · exact h.spelled d hd
      · exact (hes d hd).of_suffix h.suffix
  | case3 b s hb =>
    -- Every continuation byte would belong to the run.
    cases tails with
    | nil => exact ⟨[], rfl, List.forall_mem_nil _⟩
    | cons t tails =>
      obtain ⟨rfl, -⟩ := List.cons.inj hs
      have ht := contains_iff.mp (htails b List.mem_cons_self)
      exact absurd (hwide b ht.1) hb

/-- Newlines are ASCII bytes. -/
lemma isNewline_ascii {b : UInt8} (h : isNewline b = true) : b.toNat < 0x80 :=
  isBlank_ascii (by simp [isBlank, h])

/-- Quotes are ASCII bytes. -/
lemma isQuote_ascii {b : UInt8} (h : isQuote b = true) : b.toNat < 0x80 := by
  simp only [isQuote, Bool.or_eq_true, beq_iff_eq] at h
  obtain rfl | rfl := h <;> decide

/-- Digits are ASCII bytes. -/
lemma isDigit_ascii {b : UInt8} (h : isDigit b = true) : b.toNat < 0x80 :=
  isHexDigit_ascii (by simp [isHexDigit, hexValue?, h])

/-- Every byte outside of ASCII can start a name. -/
lemma isNameStart_of_wide {b : UInt8} (h : 0x80 ≤ b.toNat) : isNameStart b = true := by
  have hb : 0x7F < b := UInt8.lt_iff_toNat_lt.mpr h
  simp [isNameStart, hb]

/-- Every byte outside of ASCII belongs to names. -/
lemma wide_isName : Wide isName := by
  intro b h
  simp [isName, isNameStart_of_wide h]

/-- Every byte outside of ASCII belongs to urls. -/
lemma wide_isUrl : Wide isUrl := by
  intro b h
  have hb : 0x7F < b := UInt8.lt_iff_toNat_lt.mpr h
  simp [isUrl, hb]

/-- Every byte outside of ASCII belongs to strings. -/
lemma wide_quoted {quote : UInt8} (hq : isQuote quote = true) :
    Wide fun b => b != quote && !isNewline b := by
  intro b h
  have hquote : b ≠ quote := by
    rintro rfl
    exact absurd (isQuote_ascii hq) (Nat.not_lt.mpr h)
  have hnewline : isNewline b = false :=
    Bool.eq_false_iff.mpr fun hb => absurd (isNewline_ascii hb) (Nat.not_lt.mpr h)
  simp [hquote, hnewline]

/-- A run ends in front of a byte that does not belong to it. -/
lemma readRun_head (belongs : UInt8 → Bool) (joinsLines : Bool) (s : List UInt8) :
    ∀ b ∈ (readRun belongs joinsLines s).rest.head?, belongs b = false := by
  fun_induction readRun belongs joinsLines s with
  | case1 => rintro _ ⟨⟩
  | case2 _ _ _ _ _ ih => exact ih
  | case3 b s hb =>
    rintro _ ⟨⟩
    exact Bool.eq_false_iff.mpr hb

/-- The byte that ends a run is ASCII. -/
lemma readRun_head_ascii {belongs : UInt8 → Bool} (hwide : Wide belongs) (joinsLines : Bool)
    (s : List UInt8) : ∀ b ∈ (readRun belongs joinsLines s).rest.head?, b.toNat < 0x80 := by
  intro b hb
  exact hwide.ascii (readRun_head belongs joinsLines s b hb)

/-- A run ends on a boundary, wherever it starts. -/
lemma valid_readRun {belongs : UInt8 → Bool} (hwide : Wide belongs) (joinsLines : Bool)
    {s t : List UInt8} (hs : Valid s) (ht : t <:+ s) : Valid (readRun belongs joinsLines t).rest :=
  hs.suffix ((readRun_suffix belongs joinsLines t).trans ht) fun b hb =>
    not_tail_of_ascii (readRun_head_ascii hwide joinsLines t b hb)

/-- What stands behind the byte that ends a run is on a boundary too. -/
lemma valid_behind_run {belongs : UInt8 → Bool} (hwide : Wide belongs) (joinsLines : Bool)
    {b : UInt8} {s t : List UInt8} (hs : Valid s)
    (hrest : (readRun belongs joinsLines s).rest = b :: t) : Valid t := by
  have hascii := readRun_head_ascii hwide joinsLines s b (congrArg List.head? hrest)
  exact hs.behind (hrest ▸ readRun_suffix belongs joinsLines s) hascii

/-- Behind what may be an identifier there are whole characters. -/
lemma valid_readIdent {s : List UInt8} (hs : Valid s) : Valid (readIdent s).rest := by
  unfold readIdent
  split
  · exact valid_readRun wide_isName false hs List.suffix_rfl
  · exact hs

/-- A run that collects whole characters, each of which stands in the text or is named by an escape
in it. -/
def Faithful (cs : List Char) (run : Run) : Prop :=
  ∃ ds, run.bytes = encode ds ∧ ∀ d ∈ ds, Spells cs d

/-- A run without pieces is faithful. -/
lemma faithful_nil (cs : List Char) (s : List UInt8) : Faithful cs ⟨[], s⟩ :=
  ⟨[], rfl, List.forall_mem_nil _⟩

section Faithful

variable {cs : List Char} {s : List UInt8} (hs : Valid s) (hsuffix : s <:+ encode cs)
include hs hsuffix

/-- A run from a character on is faithful. -/
lemma faithful_readRun {belongs : UInt8 → Bool} (hwide : Wide belongs) (joinsLines : Bool) :
    Faithful cs (readRun belongs joinsLines s) := by
  obtain ⟨ds, rfl, hds⟩ := hs.exists_suffix hsuffix
  obtain ⟨es, hbytes, hes⟩ := readRun_bytes joinsLines hwide (List.nil_append _).symm
    (List.forall_mem_nil _)
  exact ⟨es, hbytes, fun e he => (hes e he).of_suffix hds⟩

/-- What is read as an identifier is faithful. -/
lemma faithful_readIdent : Faithful cs (readIdent s) := by
  unfold readIdent
  split
  · exact faithful_readRun hs hsuffix wide_isName false
  · exact faithful_nil cs s

end Faithful

end CssSyntax.Lexer
