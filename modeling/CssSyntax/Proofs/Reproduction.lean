import CssSyntax.Proofs.Numbers
import CssSyntax.Proofs.Restart

/-!
# Tokens and their source

Where a token is written in ASCII and without escapes, it can be read off its bytes and these off the
token. A run takes such bytes as they are (`exists_run`), so each kind of token is written as its text,
up to the letter case of keywords and units (`reproduces_cut`). Blanks are written as themselves, and a
string at the end of the input lacks its closing quote. Main statement: this holds of every token whose
text says how it is written (`tokens_reproduce_source`).
-/

namespace CssSyntax

open Byte Utf8 Lexer

/-- The lower case of a letter; any other byte is left as it is. -/
def Byte.toLower (b : UInt8) : UInt8 :=
  if 0x41 ≤ b && b ≤ 0x5A then b + 0x20 else b

/-- Bytes that are the same up to the case of their letters. -/
def SameLetters (s t : List UInt8) : Prop :=
  s.map Byte.toLower = t.map Byte.toLower

/-- ASCII bytes without an escape. -/
def Unescaped (s : List UInt8) : Prop :=
  ∀ b ∈ s, b.toNat < 0x80 ∧ b ≠ backslash

namespace Kind

/-- Whether the text of a token says how it is written. That of an unknown keyword and of what forms
no token does not, and there are other spellings of a url and of `!important`. -/
def isVerbatim : Kind → Bool
  | invalid | url _ | atUnknown | important | eof => false
  | _ => true

/-- How a token is written that ends in front of the end of the input or with it. -/
inductive WrittenAs : Kind → Bool → List UInt8 → Prop where
  | blanks (blanks : String) :
    WrittenAs (.whitespace blanks) false (bytes blanks)
  | openString (value : String) (quote : Char) :
    WrittenAs (.string value quote) true (bytes (quote.toString ++ value))
  | text {kind w} :
    kind.isWhitespace = false → SameLetters w (bytes kind.text) → WrittenAs kind false w

end Kind

namespace Lexer

/-- A byte outside of ASCII is its own lower case. -/
lemma toLower_of_wide {b : UInt8} (h : 0x80 ≤ b.toNat) : Byte.toLower b = b := by
  have hb : ¬ b ≤ 0x5A := by
    rw [UInt8.le_iff_toNat_le]
    exact Nat.not_le.mpr (Nat.lt_of_lt_of_le (by decide) h)
  simp [Byte.toLower, hb]

/-- Lower case stays as it is. -/
lemma toLower_toLower (b : UInt8) : Byte.toLower (Byte.toLower b) = Byte.toLower b := by
  have hall : ∀ n < 256, Byte.toLower (Byte.toLower (UInt8.ofNat n)) =
      Byte.toLower (UInt8.ofNat n) := by decide +kernel
  have hb := hall b.toNat b.toNat_lt
  rwa [UInt8.ofNat_toNat] at hb

/-- The lower case of a character has the lower case of its bytes. -/
lemma utf8EncodeChar_toLower (c : Char) :
    String.utf8EncodeChar c.toLower = (String.utf8EncodeChar c).map Byte.toLower := by
  by_cases hascii : c.toNat < 0x80
  · have hall : ∀ n < 0x80, String.utf8EncodeChar (Char.ofNat n).toLower =
        [Byte.toLower (UInt8.ofNat n)] := by decide +kernel
    have hc := hall c.toNat hascii
    rw [Char.ofNat_toNat] at hc
    rw [hc, bytes_ascii hascii]
    rfl
  · have hlower : c.toLower = c := by
      unfold Char.toLower
      split
      · next hupper =>
        have hle := UInt32.le_iff_toNat_le.mp hupper.2
        exact absurd (Nat.lt_of_le_of_lt hle (by decide)) hascii
      · rfl
    have hbytes : ∀ b ∈ String.utf8EncodeChar c, Byte.toLower b = b :=
      forall_bytes (fun h => absurd h hascii) fun _ => toLower_of_wide
    rw [hlower, List.map_congr_left hbytes, List.map_id']

/-- The bytes of a text in lower case are its bytes in lower case. -/
lemma bytes_toLower (s : String) : bytes s.toLower = (bytes s).map Byte.toLower := by
  have hmap : s.toLower.toList = s.toList.map Char.toLower := String.toList_map
  rw [bytes, bytes, hmap, List.flatMap_map, List.map_flatMap]
  exact congrArg (s.toList.flatMap ·) (funext utf8EncodeChar_toLower)

end Lexer

namespace SameLetters

/-- The same bytes have the same letters. -/
lemma refl (s : List UInt8) : SameLetters s s :=
  rfl

variable {s t : List UInt8}

/-- Bytes with the same letters have them one behind the other too. -/
lemma append {s' t' : List UInt8} (h : SameLetters s t) (h' : SameLetters s' t') :
    SameLetters (s ++ s') (t ++ t') := by
  unfold SameLetters at *
  rw [List.map_append, List.map_append, h, h']

/-- A text has the letters of its lower case. -/
lemma toLower (s : String) : SameLetters (bytes s) (bytes s.toLower) := by
  rw [SameLetters, bytes_toLower, List.map_map]
  exact List.map_congr_left fun b _ => (toLower_toLower b).symm

end SameLetters

namespace Lexer

/-- Bytes without escapes are the bytes of what they decode to. -/
lemma bytes_decode_unescaped {w : List UInt8} (h : Unescaped w) : bytes (decode w) = w :=
  bytes_decode_ascii fun b hb => (h b hb).1

/-- A run without an escape contributes the bytes that it takes. -/
lemma bytes_readRun {belongs : UInt8 → Bool} {joinsLines : Bool} {s w : List UInt8}
    (hs : s = w ++ (readRun belongs joinsLines s).rest) (hw : Unescaped w) :
    (readRun belongs joinsLines s).bytes = w := by
  induction w generalizing s with
  | nil =>
    have hstop : ∀ b ∈ s.head?, belongs b = false := by
      rw [hs]
      exact readRun_head belongs joinsLines s
    exact ((Gathers.refl s).run hstop).1
  | cons b w ih =>
    obtain ⟨⟨-, hraw⟩, hw⟩ := List.forall_mem_cons.mp hw
    rw [List.cons_append] at hs
    generalize ht : w ++ (readRun belongs joinsLines s).rest = t at hs
    subst hs
    by_cases hb : belongs b = true
    · have hread := gathers_piece joinsLines t hb
      rw [readPiece, if_neg hraw] at hread
      rw [hread.rest] at ht
      rw [hread.bytes, ih ht.symm hw]
      rfl
    · -- A run that does not take its first byte takes none.
      have hlength := congrArg List.length ht
      rw [readRun, if_neg hb, List.length_append, List.length_cons] at hlength
      omega

/-- A run takes the bytes in front of its rest, and they are its text if none of them is escaped. -/
lemma exists_run (belongs : UInt8 → Bool) (joinsLines : Bool) (s : List UInt8) :
    ∃ w, s = w ++ (readRun belongs joinsLines s).rest ∧
      (Unescaped w → bytes (readRun belongs joinsLines s).text = w) := by
  obtain ⟨w, hw⟩ := readRun_suffix belongs joinsLines s
  refine ⟨w, hw.symm, fun hplain => ?_⟩
  rw [Run.text, bytes_readRun hw.symm hplain, bytes_decode_unescaped hplain]

/-- An identifier without escapes is the bytes that are read for it. -/
lemma exists_ident {s : List UInt8} {name : String} (h : ident? s = some name) :
    ∃ w, s = w ++ (readIdent s).rest ∧ (Unescaped w → bytes name = w) := by
  obtain ⟨w, hw, htext⟩ := exists_run isName false s
  have hread : readIdent s = readName s := if_pos (startsIdent_of_ident? h)
  rw [← ident?_eq_text h, hread]
  exact ⟨w, hw, htext⟩

/-- A lexeme takes bytes that its kind tells, if they are not escaped. -/
def Lexeme.Reproduces (lexeme : Lexeme) (s : List UInt8) : Prop :=
  ∃ w, s = w ++ lexeme.rest ∧
    (Unescaped w → lexeme.kind.isVerbatim = true → lexeme.kind.WrittenAs lexeme.ended w)

namespace Lexeme.Reproduces

variable {lexeme : Lexeme} {s w : List UInt8}

/-- A token whose text says nothing about how it is written. -/
lemma of_suffix (hs : lexeme.rest <:+ s) (h : lexeme.kind.isVerbatim = false) :
    lexeme.Reproduces s := by
  obtain ⟨w, hw⟩ := hs
  exact ⟨w, hw.symm, fun _ hverbatim => absurd hverbatim (Bool.eq_false_iff.mp h)⟩

/-- A token that is written as its text in any letter case. -/
lemma of_text (hs : s = w ++ lexeme.rest) (hended : lexeme.ended = false)
    (hblank : lexeme.kind.isWhitespace = false)
    (h : Unescaped w → SameLetters w (bytes lexeme.kind.text)) : lexeme.Reproduces s := by
  refine ⟨w, hs, fun hw _ => ?_⟩
  rw [hended]
  exact .text hblank (h hw)

/-- A token that is written as its text. -/
lemma of_spelled (hs : s = w ++ lexeme.rest) (hended : lexeme.ended = false)
    (hblank : lexeme.kind.isWhitespace = false) (h : Unescaped w → bytes lexeme.kind.text = w) :
    lexeme.Reproduces s :=
  .of_text hs hended hblank fun hw => (h hw).symm ▸ .refl w

end Lexeme.Reproduces

/-- A symbol is written as its spelling. -/
lemma reproduces_symbol {s spelling : List UInt8} {kind : Kind}
    (h : symbol? s = some (spelling, kind)) :
    (Lexeme.take kind spelling.length s).Reproduces s := by
  have hall : ∀ entry ∈ symbols, bytes entry.2.text = entry.1 ∧ entry.2.isWhitespace = false := by
    decide +kernel
  obtain ⟨hmem, hprefix⟩ := symbol?_spec h
  obtain ⟨htext, hblank⟩ := hall _ hmem
  exact .of_spelled (List.prefix_iff_eq_append.mp hprefix).symm rfl hblank fun _ => htext

/-- Blanks are written as they are. -/
lemma reproduces_blanks {b : UInt8} {s : List UInt8} (hb : isBlank b = true) :
    Lexeme.Reproduces
      { kind := .whitespace (decode ((b :: s).takeWhile isBlank)), rest := skipBlanks s }
      (b :: s) := by
  refine ⟨(b :: s).takeWhile isBlank, ?_, fun hw _ => ?_⟩
  · have hskip : skipBlanks s = (b :: s).dropWhile isBlank := (List.dropWhile_cons_of_pos hb).symm
    dsimp only
    rw [hskip, List.takeWhile_append_dropWhile]
  · have hblanks := Kind.WrittenAs.blanks (decode ((b :: s).takeWhile isBlank))
    rwa [bytes_decode_unescaped hw] at hblanks

/-- A string is closed by its quote or by the end of the input; a broken one tells nothing. -/
lemma reproduces_cutQuoted {quote : UInt8} (hquote : isQuote quote = true) (s : List UInt8) :
    (cutQuoted quote s).Reproduces (quote :: s) := by
  obtain ⟨w, hs, htext⟩ := exists_run (fun b => b != quote && !isNewline b) true s
  have hbyte : bytes (Char.ofNat quote.toNat).toString = [quote] := by
    simp only [isQuote, Bool.or_eq_true, beq_iff_eq] at hquote
    obtain rfl | rfl := hquote <;> rfl
  rw [cutQuoted, readQuoted]
  split
  · next hend =>
    refine ⟨quote :: w, ?_, fun hw _ => ?_⟩
    · rw [hend] at hs
      rw [List.cons_append, ← hs]
    · obtain ⟨-, hw⟩ := List.forall_mem_cons.mp hw
      -- without its closing quote, a string is not written as its text
      have hopen := Kind.WrittenAs.openString
        (readRun (fun b => b != quote && !isNewline b) true s).text (Char.ofNat quote.toNat)
      rwa [bytes_append, hbyte, htext hw] at hopen
  · next b t hrest =>
    by_cases hb : b = quote
    · subst hb
      rw [if_pos rfl]
      refine .of_spelled (w := b :: (w ++ [b])) ?_ rfl rfl fun hw => ?_
      · rw [hrest] at hs
        simpa using hs
      · obtain ⟨-, hw⟩ := List.forall_mem_cons.mp hw
        obtain ⟨hw, -⟩ := List.forall_mem_append.mp hw
        rw [Kind.text, bytes_append, bytes_append, hbyte, htext hw]
        rfl
    · rw [if_neg hb]
      have hsuffix : b :: t <:+ s := hrest ▸ readRun_suffix _ true s
      exact .of_suffix (((List.suffix_cons b t).trans hsuffix).trans (List.suffix_cons quote s)) rfl

/-- A known at-keyword is written as its name behind an `@`, in any letter case. -/
lemma text_atKeywordKind {name : String} (h : (atKeywordKind name).isVerbatim = true) :
    (atKeywordKind name).text = "@" ++ name.toLower ∧
      (atKeywordKind name).isWhitespace = false := by
  unfold atKeywordKind at *
  dsimp only at *
  split_ifs at * with himport hpage hmedia hcharset
  · exact ⟨congrArg ("@" ++ ·) himport.symm, rfl⟩
  · exact ⟨congrArg ("@" ++ ·) hpage.symm, rfl⟩
  · exact ⟨congrArg ("@" ++ ·) hmedia.symm, rfl⟩
  · exact ⟨congrArg ("@" ++ ·) hcharset.symm, rfl⟩
  · cases h

/-- An at-keyword is written as its text. -/
lemma reproduces_cutAtKeyword (s : List UInt8) : (cutAtKeyword s).Reproduces (0x40 :: s) := by
  rw [cutAtKeyword]
  split
  · next name hname =>
    obtain ⟨w, hs, htext⟩ := exists_ident hname
    by_cases hverbatim : (atKeywordKind name).isVerbatim = true
    · obtain ⟨hkind, hblank⟩ := text_atKeywordKind hverbatim
      refine .of_text (w := 0x40 :: w) (congrArg (0x40 :: ·) hs) rfl hblank fun hw => ?_
      obtain ⟨-, hw⟩ := List.forall_mem_cons.mp hw
      rw [hkind, bytes_append, ← htext hw]
      exact (SameLetters.refl [0x40]).append (.toLower name)
    · exact .of_suffix ((readIdent_suffix s).trans (List.suffix_cons _ s))
        (Bool.eq_false_iff.mpr hverbatim)
  · exact .of_suffix (List.suffix_cons _ s) rfl

/-- A hash is written as its text. -/
lemma reproduces_cutHash (s : List UInt8) : (cutHash s).Reproduces (0x23 :: s) := by
  rw [cutHash]
  split
  · obtain ⟨w, hs, htext⟩ := exists_run isName false s
    refine .of_spelled (w := 0x23 :: w) (congrArg (0x23 :: ·) hs) rfl rfl fun hw => ?_
    obtain ⟨-, hw⟩ := List.forall_mem_cons.mp hw
    rw [Kind.text, bytes_append, readName, htext hw]
    rfl
  · exact .of_suffix (List.suffix_cons _ s) rfl

/-- The mark of importance is not verbatim, so only what it leaves counts. -/
lemma reproduces_cutImportant (b : UInt8) (s : List UInt8) :
    (cutImportant s).Reproduces (b :: s) := by
  refine .of_suffix ((cutImportant_suffix s).trans (List.suffix_cons b s)) ?_
  rw [cutImportant]
  split <;> rfl

/-- The text of a measure is its unit, in lower case if it is known. -/
lemma symbol_ofUnit (name : String) :
    (Measure.ofUnit name).symbol = name.toLower ∨ (Measure.ofUnit name).symbol = name := by
  obtain hknown | ⟨hunit, -⟩ := Measure.ofUnit_spec name
  · have hall : ∀ entry ∈ Measure.known, entry.2.symbol = entry.1 := by decide
    exact .inl (hall _ hknown)
  · rw [hunit]
    exact .inr rfl

/-- A number is written as its text, with its unit in any letter case. -/
lemma reproduces_cutNumeric (s : List UInt8) : (cutNumeric s).Reproduces s := by
  have hsplit := number_append_behindNumber s
  have hvalue := bytes_decode_number s
  by_cases hpercent : (behindNumber s).head? = some 0x25
  · rw [cutNumeric_percentage hpercent]
    refine .of_spelled (w := number s ++ [0x25]) ?_ rfl rfl fun _ => ?_
    · obtain ⟨t, ht⟩ := List.head?_eq_some_iff.mp hpercent
      rw [ht] at hsplit ⊢
      rw [List.append_assoc]
      exact hsplit.symm
    · rw [Kind.text, bytes_append, hvalue]
      rfl
  · cases hident : ident? (behindNumber s) with
    | none =>
      rw [cutNumeric_number hpercent hident]
      refine .of_spelled (w := number s) hsplit.symm rfl rfl fun _ => ?_
      rw [Kind.text, bytes_append, hvalue]
      exact List.append_nil _
    | some name =>
      obtain ⟨w, hbehind, htext⟩ := exists_ident hident
      rw [cutNumeric_unit hpercent hident]
      refine .of_text (w := number s ++ w) ?_ rfl rfl fun hw => ?_
      · rw [List.append_assoc, ← hbehind, hsplit]
      · -- a known unit is kept as its symbol, which is its name up to letter case
        obtain ⟨-, hw⟩ := List.forall_mem_append.mp hw
        rw [Kind.text, bytes_append, hvalue, ← htext hw]
        refine (SameLetters.refl _).append ?_
        obtain hlower | hsame := symbol_ofUnit name
        · rw [hlower]
          exact .toLower name
        · rw [hsame]
          exact .refl _

/-- A name and a function are written as their text. -/
lemma reproduces_cutIdentLike (s : List UInt8) : (cutIdentLike s).Reproduces s := by
  cases hident : ident? s with
  | none =>
    rw [cutIdentLike, hident]
    dsimp only
    split
    · next hdash =>
      obtain ⟨t, rfl⟩ := List.head?_eq_some_iff.mp hdash
      have htext : bytes Kind.minus.text = [dash] := by decide
      exact .of_spelled (w := [dash]) rfl rfl rfl fun _ => htext
    · split
      · exact .of_suffix (readIdent_suffix s) rfl
      · exact .of_suffix (List.drop_suffix 1 s) rfl
  | some name =>
    obtain ⟨w, hs, htext⟩ := exists_ident hident
    by_cases hparen : (readIdent s).rest.head? = some 0x28
    · obtain ⟨t, ht⟩ := List.head?_eq_some_iff.mp hparen
      by_cases hname : name.toLower = "url"
      · -- a url does not keep its spelling, so nothing is claimed of it
        refine .of_suffix (cutIdentLike_suffix s) ?_
        rw [cutIdentLike_url hident ht hname]
        obtain hurl | ⟨v, hurl⟩ := kind_cutUrl t <;> exact congrArg Kind.isVerbatim hurl
      · rw [cutIdentLike_function hident ht hname]
        refine .of_spelled (w := w ++ [0x28]) ?_ rfl rfl fun hw => ?_
        · rw [ht] at hs
          rwa [List.append_assoc]
        · obtain ⟨hw, -⟩ := List.forall_mem_append.mp hw
          rw [Kind.text, bytes_append, htext hw]
          rfl
    · rw [cutIdentLike_ident hident hparen]
      exact .of_spelled hs rfl rfl htext

/-- Each kind of token, by the byte that starts it. -/
lemma reproduces_cut (s : List UInt8) : (cut s).Reproduces s := by
  cases s with
  | nil => exact .of_suffix List.suffix_rfl rfl
  | cons b s =>
    apply cut_elim (P := fun lexeme => lexeme.Reproduces (b :: s))
    case blanks => exact reproduces_blanks
    case symbol => exact fun _ _ => reproduces_symbol
    case quoted => exact fun hquote => reproduces_cutQuoted hquote s
    case atKeyword =>
      rintro rfl
      exact reproduces_cutAtKeyword s
    case hash =>
      rintro rfl
      exact reproduces_cutHash s
    case important => exact fun _ => reproduces_cutImportant b s
    case numeric => exact fun _ => reproduces_cutNumeric (b :: s)
    case dot =>
      rintro rfl
      have htext : bytes Kind.dot.text = [0x2E] := by decide
      exact .of_spelled (w := [0x2E]) rfl rfl rfl fun _ => htext
    case identLike => exact reproduces_cutIdentLike (b :: s)

end Lexer

/-- Whether the end of the input ends the next token of a scanner. -/
def Scanner.endsInput (sc : Scanner) : Bool :=
  sc.text.length < sc.next.source.read

/-- A token ends with the input if the scanner stands behind the end of the text. -/
lemma Scanner.endsInput_eq (sc : Scanner) : sc.endsInput = (cut sc.ahead).ended := by
  have hle := Nat.sub_le sc.text.length (cut sc.ahead).rest.length
  rw [endsInput, read_next]
  cases (cut sc.ahead).ended <;> simp [Nat.not_lt.mpr hle]

/-- Tokens reproduce their source. The bytes of a token, if they are ASCII and hold no backslash, are its
text up to the case of letters, or for blanks just these blanks, and for a string that the end of the
input ends, its quote and its value. -/
theorem tokens_reproduce_source (sc : Scanner) (hkind : sc.next.token.kind.isVerbatim = true)
    (hplain : Unescaped sc.extent) : sc.next.token.kind.WrittenAs sc.endsInput sc.extent := by
  obtain ⟨w, hw, hwritten⟩ := reproduces_cut sc.ahead
  have hahead : sc.extent ++ (cut sc.ahead).rest = w ++ (cut sc.ahead).rest := by
    rw [← hw, ← sc.rest_next_ahead, sc.extent_append]
  have hextent : sc.extent = w := List.append_cancel_right hahead
  rw [sc.kind_next] at hkind ⊢
  rw [Scanner.endsInput_eq, hextent]
  exact hwritten (hextent ▸ hplain) hkind

/-- A unit is known in any letter case, and the end of the input closes a string. -/
theorem tokens_reproduce_source_unit :
    Kind.WrittenAs (.numeric "1.5" (.length "px")) false (bytes "1.5PX") ∧
    Kind.WrittenAs (.string "a" '"') true (bytes "\"a") := by
  have hunit := tokens_reproduce_source ((Scanner.ofText "1.5PX\"a" .origin).after 0)
    (by decide +kernel) (by unfold Unescaped; decide +kernel)
  have hstring := tokens_reproduce_source ((Scanner.ofText "1.5PX\"a" .origin).after 1)
    (by decide +kernel) (by unfold Unescaped; decide +kernel)
  have hfirst : ((Scanner.ofText "1.5PX\"a" .origin).after 0).next.token.kind =
      .numeric "1.5" (.length "px") ∧
      ((Scanner.ofText "1.5PX\"a" .origin).after 0).endsInput = false ∧
      ((Scanner.ofText "1.5PX\"a" .origin).after 0).extent = bytes "1.5PX" := by decide +kernel
  have hsecond : ((Scanner.ofText "1.5PX\"a" .origin).after 1).next.token.kind = .string "a" '"' ∧
      ((Scanner.ofText "1.5PX\"a" .origin).after 1).endsInput = true ∧
      ((Scanner.ofText "1.5PX\"a" .origin).after 1).extent = bytes "\"a" := by decide +kernel
  rw [hfirst.1, hfirst.2.1, hfirst.2.2] at hunit
  rw [hsecond.1, hsecond.2.1, hsecond.2.2] at hstring
  exact ⟨hunit, hstring⟩

end CssSyntax
