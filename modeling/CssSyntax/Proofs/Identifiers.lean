import CssSyntax.Proofs.Written

/-!
# Identifiers

An identifier decodes to what it is written for, and becomes the name of a function in front of a
parenthesis (`identifier_decodes`). No identifier is a lone dash, but what is written can be hollow:
escapes may stand for dashes or for nothing, and an identifier of these alone is empty or made of
dashes (`identifier_not_dashes_iff`).
-/

namespace CssSyntax

open Byte Utf8 Lexer Written

namespace Lexer

/-- Names are the same as bytes and as characters, but for the backslash of an escape. -/
lemma matches_name : Matches isName fun c => isNameChar c || c == '\\' := by
  unfold Matches
  decide +kernel

/-- The run of a name reads its characters plainly. -/
lemma readsPlain_name : ReadsPlain isName isNameChar :=
  ⟨wide_isName, matches_name, rfl⟩

/-- What is no character of a name is an ASCII character. -/
lemma isNameChar_ascii {c : Char} (h : isNameChar c = false) : c.toNat < 0x80 := by
  simp only [isNameChar, startsNameChar, Bool.or_eq_false_iff, decide_eq_false_iff_not] at h
  exact Nat.not_le.mp h.1.1.2

/-- The bytes that a character at the start of a name starts with. -/
def FirstOfName (b : UInt8) : Prop :=
  isNameStart b = true ∧ b ≠ dash ∧ isDigit b = false

/-- The bytes of a character that starts a name, or of a backslash, can start a name. -/
lemma firstOfName_bytes {c : Char} (h : startsNameChar c = true ∨ c = '\\') :
    ∀ b ∈ String.utf8EncodeChar c, FirstOfName b := by
  have hall : ∀ n < 0x80, (startsNameChar (Char.ofNat n) || Char.ofNat n == '\\') = true →
      isNameStart (UInt8.ofNat n) = true ∧ UInt8.ofNat n ≠ dash ∧
        isDigit (UInt8.ofNat n) = false := by decide +kernel
  apply forall_bytes
  · intro hascii
    refine hall c.toNat hascii ?_
    rw [Char.ofNat_toNat]
    simpa using h
  · intro b hb
    refine ⟨isNameStart_of_wide hb, ?_, ?_⟩
    · rintro rfl
      exact absurd hb (by decide)
    · exact Bool.eq_false_iff.mpr fun hdigit => absurd (isDigit_ascii hdigit) (Nat.not_lt.mpr hb)

/-- Where an identifier can start, the next token does, and it is made of this identifier. -/
lemma cut_ident_of_startsIdent {s : List UInt8} (h : startsIdent s = true) :
    s ≠ [] ∧ tokenStart s = s ∧ cut s = cutIdentLike s := by
  cases s with
  | nil => cases h
  | cons b s =>
    have hb : isNameStart b = true := by
      simp only [startsIdent, Bool.and_eq_true] at h
      exact h.1
    exact ⟨List.cons_ne_nil b s, tokenStart_of_isNameStart hb, cut_of_startsIdent h⟩

section CutIdentLike

variable {s t : List UInt8} {name : String} (h : ident? s = some name)
include h

/-- A name in front of anything but a parenthesis is an identifier. -/
lemma cutIdentLike_ident (hrest : (readIdent s).rest.head? ≠ some 0x28) : cutIdentLike s =
    { kind := .ident name, rest := (readIdent s).rest, runs := [readIdent s] } := by
  rw [cutIdentLike, h]
  dsimp only
  split
  · next hnil => rw [hnil]
  · next b t hcons =>
    rw [hcons] at hrest
    rw [hcons, if_neg fun hb => hrest (congrArg some hb)]

/-- A name in front of a parenthesis is a function, unless it is that of a url. -/
lemma cutIdentLike_function (hrest : (readIdent s).rest = 0x28 :: t)
    (hname : name.toLower ≠ "url") :
    cutIdentLike s = { kind := .function name, rest := t, runs := [readIdent s] } := by
  rw [cutIdentLike, h, hrest]
  simp only [if_true, if_neg hname]

/-- The name of a url in front of a parenthesis starts a url. -/
lemma cutIdentLike_url (hrest : (readIdent s).rest = 0x28 :: t) (hname : name.toLower = "url") :
    cutIdentLike s = { cutUrl t with runs := readIdent s :: (cutUrl t).runs } := by
  rw [cutIdentLike, h, hrest]
  simp only [if_true, if_pos hname]

end CutIdentLike

end Lexer

namespace Written

/-- A piece starts with the character that stands for itself, or with a backslash. -/
lemma head?_text {w : Written} {starts : Char → Bool} (h : w.plainIn starts = true) :
    ∀ c ∈ w.text.head?, starts c = true ∨ c = '\\' := by
  cases w with
  | plain c => rintro _ ⟨⟩; exact .inl h
  | escaped | numeric | continuation => rintro _ ⟨⟩; exact .inr rfl

/-- A piece that can start a name starts with a byte that can. -/
lemma exists_firstOfName {w : Written} (s : List Char) (h : w.plainIn startsNameChar = true) :
    ∃ b t, encode (w.text ++ s) = b :: t ∧ FirstOfName b := by
  obtain ⟨c, t, ht⟩ := List.exists_cons_of_ne_nil w.text_ne_nil
  obtain ⟨lead, rest, hc⟩ := exists_encodes c
  refine ⟨lead, rest ++ encode (t ++ s), ?_, ?_⟩
  · rw [ht, List.cons_append, encode_cons, hc.bytes, List.cons_append]
  · exact firstOfName_bytes (head?_text h c (ht ▸ rfl)) lead (hc.bytes ▸ List.mem_cons_self)

end Written

namespace WritesIdentifier

variable {ws : List Written} {v : List Char} (h : WritesIdentifier ws v)
include h

/-- Where an identifier is written one can start. -/
lemma startsIdent_encode : startsIdent (encode (ws.flatMap text ++ v)) = true := by
  obtain ⟨first, more, hws, hfirst⟩ := h.starts
  obtain ⟨b, s, hs, hb⟩ := exists_firstOfName (more.flatMap text ++ v) hfirst
  obtain ⟨hstart, hdash, hdigit⟩ := hb
  -- Behind a dash, the first byte of the name must be neither a dash nor a digit.
  obtain rfl | rfl := hws
  · rw [List.flatMap_cons, List.append_assoc, hs]
    simp [startsIdent, hstart, hdash]
  · have hfront :
        encode ((Written.plain '-' :: first :: more).flatMap text ++ v) = dash :: b :: s := by
      rw [← hs, List.flatMap_cons, List.flatMap_cons, List.append_assoc, List.append_assoc]
      rfl
    have hname : isNameStart dash = true := rfl
    rw [hfront]
    simp [startsIdent, hname, hdash, hdigit]

/-- What is written of an identifier is read, and nothing behind it. -/
lemma readIdent_encode :
    (readIdent (encode (ws.flatMap text ++ v))).bytes = encode (ws.flatMap value) ∧
      (readIdent (encode (ws.flatMap text ++ v))).rest = encode v := by
  have hstop : ∀ b ∈ (encode v).head?, isName b = false := by
    refine forall_head?_encode fun c hc => ?_
    obtain ⟨hplain, hraw⟩ := h.stops c hc
    exact readsPlain_name.not_bytes (isNameChar_ascii hplain) hplain hraw
  rw [readIdent, if_pos h.startsIdent_encode]
  refine readRun_written readsPlain_name false h.plain ?_ h.ends h.separate hstop
  intro w hw hcontinuation
  rw [h.noContinuation w hw] at hcontinuation
  exact hcontinuation

/-- The identifier that is read is what is written, unless this is a lone dash. -/
lemma ident?_encode (hname : ws.flatMap value ≠ ['-']) :
    ident? (encode (ws.flatMap text ++ v)) = some (String.ofList (ws.flatMap value)) := by
  obtain ⟨hbytes, -⟩ := h.readIdent_encode
  -- The lone dash is refused as a byte, but the name is known as characters.
  have hdash : encode (ws.flatMap value) ≠ [dash] := by
    intro heq
    have hchars : encode (ws.flatMap value) = encode ['-'] := heq
    rw [← chars_encode (ws.flatMap value), hchars, chars_encode] at hname
    exact hname rfl
  rw [ident?, h.startsIdent_encode, hbytes, Run.text_of_bytes hbytes, Bool.true_and,
    if_pos (bne_iff_ne.mpr hdash)]

end WritesIdentifier

/-- Letters write themselves. -/
lemma writesIdentifier_plain {cs s : List Char} (hne : cs ≠ [])
    (h : ∀ c ∈ cs, startsNameChar c = true) (hs : ∀ c ∈ s.head?, isNameChar c = false ∧ c ≠ '\\') :
    WritesIdentifier (cs.map .plain) s where
  starts := by
    obtain ⟨c, ds, rfl⟩ := List.exists_cons_of_ne_nil hne
    exact ⟨_, _, .inl rfl, h c List.mem_cons_self⟩
  plain := by
    rw [List.forall_mem_map]
    intro c hc
    simp [plainIn, isNameChar, h c hc]
  noContinuation := List.forall_mem_map.mpr fun _ _ => rfl
  ends := along_plain fun _ _ => trivial
  separate := along_plain fun _ _ => by rintro ⟨⟩
  stops := hs

/-- An identifier decodes to what its pieces stand for, however they are written, and ends behind
the last of them. An opening parenthesis behind it makes it a function and is taken as well, unless
the name is `url`. -/
theorem identifier_decodes (sc : Scanner) (ws : List Written) (v : List Char)
    (h : WritesIdentifier ws v) (hrest : sc.rest = encode (ws.flatMap text ++ v))
    (hdash : String.ofList (ws.flatMap value) ≠ "-") :
    let name := String.ofList (ws.flatMap value)
    (v.head? ≠ some '(' → sc.Yields (.ident name) (encode (ws.flatMap text)).length) ∧
    (v.head? = some '(' → name.toLower ≠ "url" →
      sc.Yields (.function name) (encode (ws.flatMap text ++ ['('])).length) := by
  have hname : ws.flatMap value ≠ ['-'] := fun heq => hdash (congrArg String.ofList heq)
  have hident := h.ident?_encode hname
  obtain ⟨-, hbehind⟩ := h.readIdent_encode
  obtain ⟨hne, hstart, hcut⟩ := cut_ident_of_startsIdent h.startsIdent_encode
  rw [← hrest] at hident hbehind hne hstart hcut
  constructor
  · intro hv
    have hparen := head?_encode_ne (d := '(') (by decide) hv
    rw [← hbehind] at hparen
    exact Scanner.yields_of_rest hne hstart (hcut.trans (cutIdentLike_ident hident hparen))
      (hrest.trans (encode_append _ v)) hbehind rfl
  · intro hv hurl
    obtain ⟨w, rfl⟩ := List.head?_eq_some_iff.mp hv
    have hsplit : sc.rest = encode (ws.flatMap text ++ ['(']) ++ encode w := by
      rw [hrest, ← encode_append, List.append_assoc]
      rfl
    exact Scanner.yields_of_rest hne hstart (hcut.trans (cutIdentLike_function hident hbehind hurl))
      hsplit rfl rfl

/-- The pieces of `-\000075`, a line break and `é\(\6C`. -/
def escapedName : List Written :=
  [.plain '-',
    .numeric ⟨['0', '0', '0', '0', '7', '5'], rfl, List.cons_ne_nil _ _, by decide⟩
      (some (.lineBreak .crlf)),
    .plain 'é', .escaped '(' rfl rfl,
    .numeric ⟨['6', 'C'], rfl, List.cons_ne_nil _ _, by decide⟩ none]

/-- The sample is the writing of an identifier in front of a comma and of a parenthesis. -/
lemma writesIdentifier_escapedName {v : List Char} (hv : v = [','] ∨ v = ['(']) :
    WritesIdentifier escapedName v where
  starts := ⟨_, _, .inr rfl, rfl⟩
  plain := by decide
  noContinuation := by decide
  ends := by
    refine ⟨trivial, trivial, trivial, trivial, ?_, trivial⟩
    obtain rfl | rfl := hv <;> rintro _ ⟨⟩ <;> decide
  separate := by
    refine ⟨?_, ?_, ?_, ?_, ?_, trivial⟩ <;> rintro ⟨⟩
  stops := by
    obtain rfl | rfl := hv <;> rintro _ ⟨⟩ <;> decide

/-- An identifier with escapes in front of a comma, and in front of a parenthesis. -/
theorem identifier_decodes_escapedName :
    (Scanner.ofText "-\\000075\r\né\\(\\6C," .origin).Yields (.ident "-ué(l") 17 ∧
    (Scanner.ofText "-\\000075\r\né\\(\\6C(" .origin).Yields (.function "-ué(l") 18 := by
  have hname : String.ofList (escapedName.flatMap value) = "-ué(l" := by decide +kernel
  obtain ⟨hident, -⟩ := identifier_decodes (.ofText "-\\000075\r\né\\(\\6C," .origin) escapedName
    [','] (writesIdentifier_escapedName (.inl rfl)) (by decide +kernel) (by decide +kernel)
  obtain ⟨-, hfunction⟩ := identifier_decodes (.ofText "-\\000075\r\né\\(\\6C(" .origin) escapedName
    ['('] (writesIdentifier_escapedName (.inr rfl)) (by decide +kernel) (by decide +kernel)
  rw [hname] at hident hfunction
  exact ⟨hident (by decide), hfunction rfl (by decide +kernel)⟩

namespace Utf8

/-- A character outside of ASCII is no dash. -/
lemma ofNat_ne_dash {n : Nat} (h : 0x80 ≤ n) : Char.ofNat n ≠ '-' := by
  intro hdash
  by_cases hvalid : n.isValidChar
  · have hvalue := toNat_ofNat hvalid
    rw [hdash] at hvalue
    exact absurd h (hvalue ▸ by decide)
  · rw [Char.ofNat, dif_neg hvalid] at hdash
    exact absurd hdash (by decide)

/-- A dash is read off its own byte alone. -/
lemma first_eq_dash {b : UInt8} {s : List UInt8} (h : (first b s).1 = '-') :
    b = dash ∧ (first b s).2 = s := by
  have hreplacement : replacement ≠ '-' := by decide
  unfold first at h ⊢
  cases hlead : continuations b with
  | none =>
    rw [hlead] at h
    exact absurd h hreplacement
  | some ranges =>
    rw [hlead] at h
    dsimp only at h ⊢
    split at h
    · next hlength =>
      have hfits := fits_accepted hlength
      -- A lead byte that asks for others numbers no ASCII character, however they are chosen.
      cases ranges with
      | nil =>
        refine ⟨?_, rfl⟩
        have hascii : b.toNat < 0x80 := (continuations_spec hlead).2.1.mp rfl
        have hvalue : b.toNat = '-'.toNat := by
          rw [← h]
          exact (toNat_ofNat (.inl (by omega))).symm
        exact UInt8.toNat_inj.mp hvalue
      | cons range ranges =>
        exact absurd h (ofNat_ne_dash (le_assemble hlead hfits))
    · exact absurd h hreplacement

/-- A text of dashes is made of their bytes. -/
lemma decode_dashes_iff (s : List UInt8) :
    (∀ c ∈ (decode s).toList, c = '-') ↔ ∀ b ∈ s, b = dash := by
  rw [decode, String.toList_ofList]
  fun_induction chars s with
  | case1 => exact iff_of_true (List.forall_mem_nil _) (List.forall_mem_nil _)
  | case2 b s _ ih =>
    rw [List.forall_mem_cons, List.forall_mem_cons]
    constructor
    · rintro ⟨hfirst, hrest⟩
      obtain ⟨hb, hs⟩ := first_eq_dash hfirst
      rw [hs] at ih hrest
      exact ⟨hb, ih.mp hrest⟩
    · rintro ⟨rfl, hs⟩
      have hread : first dash s = ('-', s) := rfl
      rw [hread] at ih ⊢
      exact ⟨rfl, ih.mpr hs⟩

/-- A lone dash is read off its own byte alone. -/
lemma decode_eq_dash {s : List UInt8} (h : decode s = "-") : s = [dash] := by
  have hchars : chars s = ['-'] := String.ofList_injective h
  cases s with
  | nil =>
    rw [chars] at hchars
    cases hchars
  | cons b s =>
    rw [chars] at hchars
    obtain ⟨hfirst, hrest⟩ := List.cons.inj hchars
    obtain ⟨rfl, hs⟩ := first_eq_dash hfirst
    rw [hs] at hrest
    cases s with
    | nil => rfl
    | cons c s =>
      rw [chars] at hrest
      cases hrest

end Utf8

/-- The identifier that a token carries: a name, or a unit that is kept as it was written. -/
def Kind.identifier? : Kind → Option String
  | ident name | function name => some name
  | numeric _ (.dimension unit) => some unit
  | _ => none

namespace Lexer

/-- Bytes with a name in front that is empty or made of dashes: dashes, escapes of dashes, and
escapes that stand for nothing, up to what belongs to no name. -/
inductive Hollow : List UInt8 → Prop where
  | stop {s} :
    (∀ b ∈ s.head?, isName b = false) → Hollow s
  | plainDash {s} :
    Hollow s → Hollow (dash :: s)
  | escapedDash {s} :
    Hollow s → Hollow (backslash :: dash :: s)
  | numeric {s} (digits : HexDigits) :
    (∀ c ∈ digits.char?, c = '-') →
      (digits.chars.length < 6 → ∀ b ∈ s.head?, isHexDigit b = false) →
      Hollow (skipTerminator s) → Hollow (backslash :: (encode digits.chars ++ s))
  | lineBreak {b s} :
    isNewline b = true → Hollow s → Hollow (backslash :: b :: s)
  | atEnd :
    Hollow [backslash]

/-- A character whose bytes are dashes is a dash. -/
lemma eq_dash_of_bytes {c : Char} (h : ∀ b ∈ String.utf8EncodeChar c, b = dash) : c = '-' := by
  have hbytes : ∀ b ∈ encode [c], b = dash := by rwa [encode_singleton]
  have hchars := (decode_dashes_iff (encode [c])).mpr hbytes
  rw [decode_encode, String.toList_ofList, List.forall_mem_singleton] at hchars
  exact hchars

/-- A name is made of dashes if what is gathered first is and the name behind it is. -/
lemma Gathers.dashes {s t bytes : List UInt8} (h : Gathers isName false s t bytes) :
    (∀ b ∈ (readName s).bytes, b = dash) ↔
      (∀ b ∈ bytes, b = dash) ∧ ∀ b ∈ (readName t).bytes, b = dash := by
  rw [readName, h.bytes, List.forall_mem_append]
  rfl

/-- A newline is no hexadecimal digit. -/
lemma not_isHexDigit_of_isNewline {b : UInt8} (h : isNewline b = true) : ¬ isHexDigit b = true := by
  simp only [isNewline, Bool.or_eq_true, beq_iff_eq] at h
  obtain (rfl | rfl) | rfl := h <;> decide

/-- Of a hollow name only dashes remain. -/
lemma Hollow.dashes {s : List UInt8} (h : Hollow s) : ∀ b ∈ (readName s).bytes, b = dash := by
  induction h with
  | stop hs =>
    rw [readName, ((Gathers.refl _).run hs).1]
    exact List.forall_mem_nil _
  | @plainDash s _ ih =>
    have hread : Gathers isName false (dash :: s) s [dash] :=
      gathers_raw (List.forall_mem_singleton.mpr ⟨rfl, by decide⟩)
    exact hread.dashes.mpr ⟨List.forall_mem_singleton.mpr rfl, ih⟩
  | @escapedDash s _ ih =>
    have hread := gathers_escape readsPlain_name false (dash :: s)
    exact hread.dashes.mpr ⟨List.forall_mem_singleton.mpr rfl, ih⟩
  | numeric digits hchar hend _ ih =>
    -- digits number a dash, or no character at all
    refine (gathers_digits readsPlain_name false digits hend).dashes.mpr ⟨?_, ih⟩
    cases hd : digits.char? with
    | none => exact List.forall_mem_nil _
    | some c =>
      rw [hchar c hd]
      exact List.forall_mem_singleton.mpr rfl
  | @lineBreak b s hb _ ih =>
    have hread := gathers_escape readsPlain_name false (b :: s)
    rw [readEscape, if_neg (not_isHexDigit_of_isNewline hb), if_pos hb] at hread
    exact hread.dashes.mpr ⟨List.forall_mem_nil _, ih⟩
  | atEnd =>
    have hread := gathers_escape readsPlain_name false []
    refine hread.dashes.mpr ⟨List.forall_mem_nil _, ?_⟩
    rw [readName, readEscape, readRun]
    exact List.forall_mem_nil _

/-- The digits of an escape end in front of something else, unless there are six of them. -/
lemma exists_escapeDigits_append (s : List UInt8) : ∃ t, s = escapeDigits s ++ t ∧
    ((escapeDigits s).length < 6 → ∀ b ∈ t.head?, isHexDigit b = false) := by
  have hprefix : escapeDigits s <+: s := (List.takeWhile_prefix _).trans (List.take_prefix 6 s)
  refine ⟨s.drop (escapeDigits s).length, List.prefix_iff_eq_append.mp hprefix |>.symm, ?_⟩
  intro hlt b hb
  have hall : escapeDigits s = s.takeWhile isHexDigit := by
    rw [escapeDigits, ← List.take_takeWhile] at hlt ⊢
    rw [List.length_take] at hlt
    exact List.take_of_length_le (by omega)
  have hdrop : s.drop (s.takeWhile isHexDigit).length = s.dropWhile isHexDigit := by
    calc s.drop (s.takeWhile isHexDigit).length
        = (s.takeWhile isHexDigit ++ s.dropWhile isHexDigit).drop
            (s.takeWhile isHexDigit).length := by rw [List.takeWhile_append_dropWhile]
      _ = s.dropWhile isHexDigit := List.drop_left
  have hhead := List.head?_dropWhile_not isHexDigit s
  rw [hall, hdrop, Option.mem_def] at hb
  rw [hb] at hhead
  exact hhead

/-- One to six bytes that are hexadecimal digits are the digits of an escape. -/
lemma exists_hexDigits {s : List UInt8} (hhex : ∀ b ∈ s, isHexDigit b = true) (hne : s ≠ [])
    (hle : s.length ≤ 6) : ∃ digits : HexDigits, encode digits.chars = s := by
  have hascii : ∀ b ∈ s, b.toNat < 0x80 := fun b hb => isHexDigit_ascii (hhex b hb)
  have hchars : (s.map fun b => Char.ofNat b.toNat).all isHexChar = true := by
    rw [List.all_map, List.all_eq_true]
    intro b hb
    have hmatches := matches_hex b.toNat (hascii b hb)
    rw [UInt8.ofNat_toNat, hhex b hb] at hmatches
    exact hmatches.symm
  exact ⟨⟨s.map fun b => Char.ofNat b.toNat, hchars, List.map_eq_nil_iff.not.mpr hne,
    (List.length_map _).trans_le hle⟩, encode_ofNat hascii⟩

/-- A piece that contributes dashes or nothing belongs to what is hollow. -/
lemma hollow_of_escape {s : List UInt8} (hpiece : ∀ b ∈ (readEscape false s).1.bytes, b = dash)
    (hs : Hollow (readEscape false s).2) : Hollow (backslash :: s) := by
  cases s with
  | nil => exact .atEnd
  | cons b t =>
    by_cases hhex : isHexDigit b = true
    · have hne : escapeDigits (b :: t) ≠ [] := by simp [escapeDigits, hhex]
      have hle : (escapeDigits (b :: t)).length ≤ 6 :=
        (List.takeWhile_prefix isHexDigit).length_le.trans (List.length_take_le 6 (b :: t))
      have hall : ∀ c ∈ escapeDigits (b :: t), isHexDigit c = true :=
        fun c hc => List.mem_takeWhile_imp hc
      obtain ⟨digits, hdigits⟩ := exists_hexDigits hall hne hle
      obtain ⟨u, hsplit, hend⟩ := exists_escapeDigits_append (b :: t)
      rw [← hdigits] at hsplit hend
      rw [digits.length_encode] at hend
      obtain ⟨hrest, hbytes⟩ := readEscape_digits false digits hend
      rw [hsplit] at hpiece hs ⊢
      rw [hbytes] at hpiece
      rw [hrest] at hs
      -- A character is known only by its bytes here.
      refine .numeric digits (fun c hc => eq_dash_of_bytes ?_) hend hs
      rwa [hc, Option.toList_some, encode_singleton] at hpiece
    · rw [readEscape, if_neg hhex] at hpiece hs
      by_cases hnewline : isNewline b = true
      · rw [if_pos hnewline] at hs
        exact .lineBreak hnewline hs
      · rw [if_neg hnewline] at hpiece hs
        obtain rfl := hpiece b List.mem_cons_self
        exact .escapedDash hs

/-- A name of which only dashes remain is hollow. -/
lemma hollow_of_dashes {s : List UInt8} (h : ∀ b ∈ (readName s).bytes, b = dash) : Hollow s := by
  rw [readName] at h
  -- The run goes on behind each piece, so the induction is on the run and not on the bytes.
  fun_induction readRun isName false s with
  | case1 => exact .stop (by rintro _ ⟨⟩)
  | case3 b s hb =>
    refine .stop ?_
    rintro _ ⟨⟩
    exact Bool.eq_false_iff.mpr hb
  | case2 b s hb _ =>
    rename_i ih
    obtain ⟨hpiece, hmore⟩ := List.forall_mem_append.mp h
    have hrest := ih hmore
    rw [readPiece] at hpiece hrest
    split at hpiece
    · next hbackslash =>
      subst hbackslash
      rw [if_pos rfl] at hrest
      exact hollow_of_escape hpiece hrest
    · next hraw =>
      rw [if_neg hraw] at hrest
      obtain rfl := hpiece b List.mem_cons_self
      exact .plainDash hrest

/-- Where an identifier can start there is no number. -/
lemma number_of_startsIdent {s : List UInt8} (h : startsIdent s = true) : number s = [] := by
  cases s with
  | nil => cases h
  | cons b s =>
    simp only [startsIdent, Bool.and_eq_true] at h
    have hnumber : startsNumber (b :: s) = false := startsNumber_of_isNameStart h.1
    simpa [startsNumber] using hnumber

/-- The bytes behind the number at the front of some bytes. -/
def behindNumber (s : List UInt8) : List UInt8 :=
  s.drop (number s).length

section

variable {s : List UInt8} {name : String}

/-- A unit that is carried as an identifier is kept as it is written. -/
lemma ident?_of_ofUnit {unit value : String}
    (h : (Kind.numeric value (.ofUnit unit)).identifier? = some name) : unit = name := by
  unfold Measure.ofUnit at h
  dsimp only at h
  split_ifs at h
  case neg => exact Option.some.inj h
  all_goals cases h

/-- A url carries no identifier. -/
lemma identifier?_cutUrl (s : List UInt8) : (cutUrl s).kind.identifier? = none := by
  obtain h | ⟨v, h⟩ := kind_cutUrl s <;> exact congrArg Kind.identifier? h

/-- What a name or a function carries as an identifier is one, at its start. -/
lemma ident?_of_cutIdentLike (h : (cutIdentLike s).kind.identifier? = some name) :
    ident? (behindNumber s) = some name := by
  have hident : ident? s = some name := by
    unfold cutIdentLike at h
    split at h
    · next unit hunit =>
      dsimp only at h
      split at h
      · exact hunit.trans h
      · split at h
        · split at h
          · dsimp only at h
            rw [identifier?_cutUrl] at h
            cases h
          · exact hunit.trans h
        · exact hunit.trans h
    · dsimp only at h
      split at h
      · cases h
      · split at h <;> cases h
  rw [behindNumber, number_of_startsIdent (startsIdent_of_ident? hident)]
  exact hident

/-- What a number carries as an identifier is one, behind the number. -/
lemma ident?_of_cutNumeric (h : (cutNumeric s).kind.identifier? = some name) :
    ident? (behindNumber s) = some name := by
  unfold cutNumeric at h
  dsimp only at h
  split at h
  · cases h
  · split at h
    · next unit hunit => exact hunit.trans (congrArg some (ident?_of_ofUnit h))
    · cases h

/-- What a token carries as an identifier is one, at the start of the token or behind its number. -/
lemma ident?_of_cut (h : (cut s).kind.identifier? = some name) :
    ident? (behindNumber s) = some name := by
  cases s with
  | nil => cases h
  | cons b s =>
    revert h
    apply cut_elim (P := fun lexeme => lexeme.kind.identifier? = some name →
      ident? (behindNumber (b :: s)) = some name)
    case blanks => rintro - ⟨⟩
    case symbol =>
      intro spelling kind hsymbol h
      have hall : ∀ entry ∈ symbols, entry.2.identifier? = none := by decide
      have hnone : kind.identifier? = none := hall _ (List.mem_of_find?_eq_some hsymbol)
      cases hnone.symm.trans h
    case quoted =>
      intro _ h
      obtain hkind | ⟨v, q, hkind⟩ := kind_cutQuoted b s <;> rw [hkind] at h <;> cases h
    case atKeyword =>
      intro _ h
      have hall : ∀ kind ∈ atKeywords, kind.identifier? = none := by decide
      obtain hkind | hmem := kind_cutAtKeyword s
      · rw [hkind] at h
        cases h
      · cases (hall _ hmem).symm.trans h
    case hash =>
      intro _ h
      unfold cutHash at h
      split at h <;> cases h
    case important =>
      intro _ h
      unfold cutImportant at h
      dsimp only at h
      split at h <;> cases h
    -- only the unit of a number and what starts like an identifier carry a name
    case numeric => exact fun _ => ident?_of_cutNumeric
    case dot => rintro - ⟨⟩
    case identLike => exact ident?_of_cutIdentLike

/-- An identifier is empty or made of dashes if and only if it is hollow as it is written. -/
lemma dashes_iff_hollow (h : ident? s = some name) :
    (∀ c ∈ name.toList, c = '-') ↔ Hollow s := by
  have htext := ident?_eq_text h
  rw [readIdent, if_pos (startsIdent_of_ident? h)] at htext
  rw [← htext, Run.text, decode_dashes_iff]
  exact ⟨hollow_of_dashes, Hollow.dashes⟩

/-- No identifier is a lone dash. -/
lemma ident?_ne_dash (h : ident? s = some name) : name ≠ "-" := by
  rintro rfl
  have hbytes : (readIdent s).bytes = [dash] := decode_eq_dash (ident?_eq_text h)
  rw [ident?, hbytes, bne_self_eq_false, Bool.and_false] at h
  cases h

end

end Lexer

/-- No identifier is a lone dash, but one is empty or made of several dashes if and only if it is
hollow as it is written. The same holds of every identifier that a token carries. -/
theorem identifier_not_dashes_iff (name : String) :
    (∀ s, ident? s = some name →
      name ≠ "-" ∧ ((∃ c ∈ name.toList, c ≠ '-') ↔ ¬ Hollow s)) ∧
    ∀ sc : Scanner, sc.next.token.kind.identifier? = some name →
      name ≠ "-" ∧
        ((∃ c ∈ name.toList, c ≠ '-') ↔ ¬ Hollow (behindNumber (tokenStart sc.rest))) := by
  have hident : ∀ s, ident? s = some name →
      name ≠ "-" ∧ ((∃ c ∈ name.toList, c ≠ '-') ↔ ¬ Hollow s) := by
    intro s h
    refine ⟨ident?_ne_dash h, ?_⟩
    rw [← dashes_iff_hollow h]
    push Not
    rfl
  exact ⟨hident, fun sc h => hident _ (ident?_of_cut h)⟩

/-- A unit behind two escaped dashes has a letter, and two escapes that name no character leave an
empty identifier. -/
theorem identifier_not_dashes_iff_escaped :
    (Scanner.ofText "1\\2D\\2D x" .origin).next.token.kind.identifier? = some "--x" ∧
    ¬ Hollow (bytes "\\2D\\2D x") ∧
    ident? (bytes "\\d800 \\110000") = some "" ∧ Hollow (bytes "\\d800 \\110000") := by
  have hunit : (Scanner.ofText "1\\2D\\2D x" .origin).next.token.kind.identifier? =
      some "--x" := by decide +kernel
  have hstart : behindNumber (tokenStart (Scanner.ofText "1\\2D\\2D x" .origin).rest) =
      bytes "\\2D\\2D x" := by decide +kernel
  have hempty : ident? (bytes "\\d800 \\110000") = some "" := by decide +kernel
  obtain ⟨-, hkept⟩ := (identifier_not_dashes_iff "--x").2 _ hunit
  obtain ⟨-, hhollow⟩ := (identifier_not_dashes_iff "").1 _ hempty
  rw [hstart] at hkept
  refine ⟨hunit, hkept.mp ⟨'x', by decide, by decide⟩, hempty, ?_⟩
  by_contra hkept
  obtain ⟨c, hc, -⟩ := hhollow.mpr hkept
  cases hc

/-- A backslash at the end of the input is an identifier without a character, and so are an escape
that names no character in front of a parenthesis and a backslash behind a number. Two escaped
dashes are an identifier as well. -/
theorem identifier_of_dashes :
    (ident? [backslash] = some "" ∧ ¬ ∃ c ∈ "".toList, c ≠ '-') ∧
    (tokenize "\\" .origin).map Token.kind = [.ident ""] ∧
    (tokenize "\\-\\-" .origin).map Token.kind = [.ident "--"] ∧
    (tokenize "\\d800 (" .origin).map Token.kind = [.function ""] ∧
    (tokenize "1\\" .origin).map Token.kind = [.numeric "1" (.dimension "")] := by
  refine ⟨⟨by decide +kernel, ?_⟩, by decide +kernel⟩
  rintro ⟨c, hc, -⟩
  cases hc

end CssSyntax
