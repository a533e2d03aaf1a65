import CssSyntax.Proofs.Identifiers

/-!
# Strings and urls

A string decodes to what is written between its quotes (`string_decodes`). The parameter of a url
may be a string or go without quotes. These are read differently, but what may stand in both means
the same in both (`urls_agree`). Only a carriage return at the end of an escape needs care: a line
feed behind the parameter is a blank behind a quote, but belongs to the escape where no quote is.
-/

namespace CssSyntax

open Byte Utf8 Lexer Written

namespace Lexer

section CutQuoted

variable {quote : UInt8} {s t : List UInt8}

/-- The next token of a quote is its string. -/
lemma cut_of_quote (hquote : isQuote quote = true) (hs : s = quote :: t) :
    s ≠ [] ∧ tokenStart s = s ∧ cut s = cutQuoted quote t := by
  subst hs
  refine ⟨List.cons_ne_nil _ _, ?_⟩
  simp only [isQuote, Bool.or_eq_true, beq_iff_eq] at hquote
  obtain rfl | rfl := hquote <;> exact ⟨tokenStart_eq_self rfl (by decide) rfl, rfl⟩

/-- A string that is closed ends behind its quote. -/
lemma cutQuoted_of_closed (h : (readQuoted quote s).rest = quote :: t) : cutQuoted quote s =
    { kind := .string (readQuoted quote s).text (Char.ofNat quote.toNat), rest := t,
      runs := [readQuoted quote s] } := by
  rw [cutQuoted, h]
  simp only [if_true]

/-- A string that the input ends is closed by it. -/
lemma cutQuoted_of_end (h : (readQuoted quote s).rest = []) : cutQuoted quote s =
    { kind := .string (readQuoted quote s).text (Char.ofNat quote.toNat), rest := [],
      ended := true, runs := [readQuoted quote s] } := by
  rw [cutQuoted, h]

end CutQuoted

/-- A quote, and the byte that it is written as. -/
structure Quote (quote : Char) (byte : UInt8) : Prop where
  isQuote : isQuote byte = true
  encode : String.utf8EncodeChar quote = [byte]
  ofNat : Char.ofNat byte.toNat = quote
  readsPlain : ReadsPlain (fun b => b != byte && !isNewline b) (isStringChar quote)
  ends : isBlankChar quote = false ∧ isHexChar quote = false
  ne_newline : quote ≠ '\n'

/-- Double and single quotes are quotes. -/
lemma exists_quote {quote : Char} (h : quote = '"' ∨ quote = '\'') :
    ∃ byte, Quote quote byte := by
  obtain rfl | rfl := h
  · exact ⟨0x22, rfl, rfl, rfl, ⟨wide_quoted rfl, by unfold Matches; decide +kernel, rfl⟩,
      by decide, by decide⟩
  · exact ⟨0x27, rfl, rfl, rfl, ⟨wide_quoted rfl, by unfold Matches; decide +kernel, rfl⟩,
      by decide, by decide⟩

section Quoted

variable {quote : Char} {byte : UInt8} (hquote : Quote quote byte)
include hquote

/-- A quote is a single byte in front of the others. -/
lemma Quote.encode_cons (cs : List Char) : Utf8.encode (quote :: cs) = byte :: Utf8.encode cs := by
  rw [Utf8.encode_cons, hquote.encode, List.singleton_append]

/-- The inside of a string runs up to its quote, or to the end of the input. -/
lemma readQuoted_written {ws : List Written} {s : List Char}
    (hplain : ∀ w ∈ ws, w.plainIn (isStringChar quote) = true) (hends : Along EndsBefore [] ws)
    (hs : ∀ c ∈ s.head?, c = quote) :
    (readQuoted byte (encode (ws.flatMap text ++ s))).text = String.ofList (ws.flatMap value) ∧
      (readQuoted byte (encode (ws.flatMap text ++ s))).rest = encode s := by
  have hends : Along EndsBefore s ws :=
    along_endsBefore hends fun c hc => .inr (hs c hc ▸ hquote.ends)
  -- A line feed stands for itself in no string, so none can join a carriage return.
  have hseparate : Along Separate s ws := by
    refine along_separate (fun w hw => head?_text_ne_newline (hplain w hw) (Bool.and_false _)) ?_
    intro w _ _ hnewline
    exact hquote.ne_newline (hs _ hnewline).symm
  have hstop : ∀ b ∈ (encode s).head?, (b != byte && !isNewline b) = false := by
    refine forall_head?_encode fun c hc => ?_
    rw [hs c hc, hquote.encode]
    exact List.forall_mem_singleton.mpr (by simp)
  obtain ⟨hbytes, hrest⟩ := readRun_written hquote.readsPlain true hplain (fun _ _ _ => rfl) hends
    hseparate hstop
  exact ⟨Run.text_of_bytes hbytes, hrest⟩

end Quoted

end Lexer

/-- A string decodes to what its pieces stand for, whatever follows its closing quote, and the
scanner then stands on this quote. At the end of the input the quote may be left out. -/
theorem string_decodes (sc : Scanner) (quote : Char) (hquote : quote = '"' ∨ quote = '\'')
    (ws : List Written) (hplain : ∀ w ∈ ws, w.plainIn (isStringChar quote) = true)
    (hends : Along EndsBefore [] ws) :
    let string := Kind.string (String.ofList (ws.flatMap value)) quote
    (∀ v, sc.rest = encode (quote :: ws.flatMap text ++ quote :: v) →
      sc.Yields string (encode (quote :: ws.flatMap text ++ [quote])).length) ∧
    (sc.rest = encode (quote :: ws.flatMap text) →
      sc.Yields string ((encode (quote :: ws.flatMap text)).length + 1)) := by
  obtain ⟨byte, hbyte⟩ := exists_quote hquote
  constructor
  · intro v hrest
    obtain ⟨htext, hbehind⟩ := readQuoted_written hbyte (s := quote :: v) hplain hends
      (by rintro _ ⟨⟩; rfl)
    rw [hbyte.encode_cons] at hbehind
    have hsplit : sc.rest = encode (quote :: ws.flatMap text ++ [quote]) ++ encode v := by
      rw [hrest, ← encode_append, List.append_assoc, List.singleton_append]
    rw [List.cons_append, hbyte.encode_cons] at hrest
    obtain ⟨hne, hstart, hcut⟩ := cut_of_quote hbyte.isQuote hrest
    have hyields := Scanner.yields_of_rest hne hstart (hcut.trans (cutQuoted_of_closed hbehind))
      hsplit rfl rfl
    rwa [htext, hbyte.ofNat] at hyields
  · intro hrest
    -- the end of the input closes the string in place of a quote
    obtain ⟨htext, hbehind⟩ := readQuoted_written hbyte (s := []) hplain hends (by rintro _ ⟨⟩)
    rw [List.append_nil] at htext hbehind
    rw [← hrest]
    rw [hbyte.encode_cons] at hrest
    obtain ⟨hne, hstart, hcut⟩ := cut_of_quote hbyte.isQuote hrest
    have hyields := Scanner.yields_of_ended hne hstart (hcut.trans (cutQuoted_of_end hbehind)) rfl
    rwa [htext, hbyte.ofNat] at hyields

/-- The pieces of `é\é`, `\41` and a line break, a surrogate, a joined line break and `\"`. -/
def escapedString : List Written :=
  [.plain 'é', .escaped 'é' rfl rfl,
    .numeric ⟨['4', '1'], rfl, List.cons_ne_nil _ _, by decide⟩ (some (.lineBreak .crlf)),
    .numeric ⟨['d', '8', '0', '0'], rfl, List.cons_ne_nil _ _, by decide⟩ (some .space),
    .continuation .cr, .escaped '"' rfl rfl]

/-- A string with all kinds of pieces, with its closing quote and without it. -/
theorem string_decodes_escapedString :
    (Scanner.ofText "\"é\\é\\41\r\n\\d800 \\\r\\\"\"x" .origin).Yields (.string "ééA\"" '"') 22 ∧
    (Scanner.ofText "\"é\\é\\41\r\n\\d800 \\\r\\\"" .origin).Yields (.string "ééA\"" '"') 22 := by
  have hvalue : String.ofList (escapedString.flatMap value) = "ééA\"" := by decide +kernel
  obtain ⟨hclosed, -⟩ := string_decodes (.ofText "\"é\\é\\41\r\n\\d800 \\\r\\\"\"x" .origin) '"'
    (.inl rfl) escapedString (by decide) (by decide)
  obtain ⟨-, hopen⟩ := string_decodes (.ofText "\"é\\é\\41\r\n\\d800 \\\r\\\"" .origin) '"'
    (.inl rfl) escapedString (by decide) (by decide)
  rw [hvalue] at hclosed hopen
  exact ⟨hclosed ['x'] (by decide +kernel), hopen (by decide +kernel)⟩

namespace Lexer

/-- The run of a url reads its characters plainly. -/
lemma readsPlain_url : ReadsPlain isUrl isUrlChar := by
  refine ⟨wide_isUrl, ?_, rfl⟩
  unfold Matches
  decide +kernel

/-- The bytes of a blank are blanks. -/
lemma isBlank_bytes {c : Char} (h : isBlankChar c = true) :
    ∀ b ∈ String.utf8EncodeChar c, isBlank b = true := by
  have hascii : c.toNat < 0x80 := by
    simp only [isBlankChar, isBreakChar, List.mem_cons, List.not_mem_nil, or_false,
      Bool.or_eq_true, decide_eq_true_eq] at h
    obtain (rfl | rfl | rfl) | rfl | rfl := h <;> decide
  rw [bytes_ascii hascii, List.forall_mem_singleton, matches_blank.byte hascii]
  exact h

/-- Blanks are skipped in front of what starts with none. -/
lemma skipBlanks_encode {blanks s : List Char} (hblanks : ∀ c ∈ blanks, isBlankChar c = true)
    (hs : ∀ c ∈ s.head?, isBlankChar c = false) :
    skipBlanks (encode (blanks ++ s)) = encode s := by
  have hfront : ∀ b ∈ encode blanks, isBlank b = true := by
    intro b hb
    obtain ⟨c, hc, hbc⟩ := List.mem_flatMap.mp hb
    exact isBlank_bytes (hblanks c hc) b hbc
  have hstop : ∀ b ∈ (encode s).head?, isBlank b = false :=
    forall_head?_encode fun c hc => matches_blank.not_bytes isBlank_ascii (hs c hc)
  rw [encode_append, skipBlanks, List.dropWhile_append_of_pos hfront]
  cases he : encode s with
  | nil => rfl
  | cons b t =>
    rw [he] at hstop
    exact List.dropWhile_cons_of_neg (Bool.eq_false_iff.mp (hstop b rfl))

/-- What is no character of a url is an ASCII character. -/
lemma isUrlChar_ascii {c : Char} (h : isUrlChar c = false) : c.toNat < 0x80 := by
  simp only [isUrlChar, Bool.or_eq_false_iff, decide_eq_false_iff_not] at h
  exact Nat.not_le.mp h.1.1

/-- A carriage return at the end of the last piece takes a line feed of the blanks behind it along.
So there may be a blank less, but nothing else changes. -/
lemma gathers_last {w : Written} {blanks s : List Char} (hplain : w.plainIn isUrlChar = true)
    (hjoin : w.isContinuation = false) (hends : w.EndsBefore (blanks ++ s))
    (hblanks : ∀ c ∈ blanks, isBlankChar c = true) (hs : s.head? ≠ some '\n') :
    ∃ more, (∀ c ∈ more, isBlankChar c = true) ∧
      Gathers isUrl false (encode (w.text ++ (blanks ++ s))) (encode (more ++ s))
        (encode w.value) := by
  by_cases hseparate : w.Separate (blanks ++ s)
  · exact ⟨blanks, hblanks,
      gathers_written readsPlain_url false hplain (fun hc => hjoin.symm.trans hc) hends hseparate⟩
  · obtain ⟨hreturn, hnewline⟩ := Classical.not_imp.mp hseparate
    have hnewline := not_not.mp hnewline
    cases blanks with
    | nil => exact absurd hnewline hs
    | cons c blanks =>
      cases hnewline
      refine ⟨blanks, (List.forall_mem_cons.mp hblanks).2, ?_⟩
      unfold endsInReturn at hreturn
      split at hreturn
      · next digits =>
        -- Both together are a line break that ends the same digits.
        have hread := gathers_written readsPlain_url false
          (w := .numeric digits (some (.lineBreak .crlf))) (s := blanks ++ s) rfl (by rintro ⟨⟩)
          trivial (by rintro ⟨⟩)
        simpa [Written.text, Written.value, Terminator.text, LineBreak.text] using hread
      · cases hjoin
      · cases hreturn

/-- A parameter without quotes is gathered up to blanks. -/
lemma gathers_parameter {ws : List Written} {blanks s : List Char}
    (hplain : ∀ w ∈ ws, w.plainIn isUrlChar = true) (hjoin : ∀ w ∈ ws, w.isContinuation = false)
    (hends : Along EndsBefore (blanks ++ s) ws) (hblanks : ∀ c ∈ blanks, isBlankChar c = true)
    (hs : s.head? ≠ some '\n') :
    ∃ more, (∀ c ∈ more, isBlankChar c = true) ∧
      Gathers isUrl false (encode (ws.flatMap text ++ (blanks ++ s))) (encode (more ++ s))
        (encode (ws.flatMap value)) := by
  induction ws with
  | nil => exact ⟨blanks, hblanks, .refl _⟩
  | cons w ws ih =>
    obtain ⟨hw, hplain⟩ := List.forall_mem_cons.mp hplain
    obtain ⟨hj, hjoin⟩ := List.forall_mem_cons.mp hjoin
    -- Only the last piece meets the blanks.
    cases ws with
    | nil => simpa using gathers_last hw hj (by simpa using hends.1) hblanks hs
    | cons v vs =>
      obtain ⟨more, hmore, hread⟩ := ih hplain hjoin hends.2
      refine ⟨more, hmore, ?_⟩
      have hseparate : w.Separate ((v :: vs).flatMap text ++ (blanks ++ s)) := by
        intro _
        rw [List.flatMap_cons, List.append_assoc, head?_text_append]
        exact head?_text_ne_newline (hplain v List.mem_cons_self) rfl
      have hfirst := gathers_written readsPlain_url false hw (fun hc => hj.symm.trans hc) hends.1
        hseparate
      rw [List.flatMap_cons, List.append_assoc, List.flatMap_cons (f := value),
        encode_append w.value]
      exact hfirst.trans hread

/-- A parenthesis behind its parameter closes a url. -/
lemma closeUrl_paren (parameter : Run) (s : List UInt8) : closeUrl parameter (0x29 :: s) =
    { kind := .url parameter.text, rest := s, runs := [parameter] } := rfl

/-- A parameter in quotes is the string between them. -/
lemma cutUrl_quoted {s t u : List UInt8} {quote : UInt8} (hskip : skipBlanks s = quote :: t)
    (hquote : isQuote quote = true) (hrest : (readQuoted quote t).rest = quote :: u) :
    cutUrl s = closeUrl (readQuoted quote t) (skipBlanks u) := by
  rw [cutUrl, hskip]
  dsimp only
  rw [if_pos hquote, hrest]
  dsimp only
  rw [if_pos rfl]

/-- A parameter without quotes may be empty. -/
lemma cutUrl_plain {s : List UInt8} (hne : skipBlanks s ≠ [])
    (hquote : ∀ b ∈ (skipBlanks s).head?, isQuote b = false) :
    cutUrl s = closeUrl (readRun isUrl false (skipBlanks s))
      (skipBlanks (readRun isUrl false (skipBlanks s)).rest) := by
  have hskip : skipBlanks (skipBlanks s) = skipBlanks s := List.dropWhile_idempotent isBlank s
  rw [cutUrl]
  cases hs : skipBlanks s with
  | nil => exact absurd hs hne
  | cons b t =>
    rw [hs] at hskip hquote
    dsimp only
    rw [if_neg (Bool.eq_false_iff.mp (hquote b rfl))]
    split
    · rfl
    · next hurl => rw [readRun, if_neg hurl, hskip]

/-- Blanks are no characters of a url. -/
lemma isUrlChar_of_blank {c : Char} (h : isBlankChar c = true) : isUrlChar c = false := by
  simp only [isBlankChar, isBreakChar, List.mem_cons, List.not_mem_nil, or_false,
    Bool.or_eq_true, decide_eq_true_eq] at h
  obtain (rfl | rfl | rfl) | rfl | rfl := h <;> rfl

/-- Quotes are the same as bytes and as characters. -/
lemma matches_quote : Matches isQuote fun c => c == '"' || c == '\'' := by
  unfold Matches
  decide +kernel

/-- What stands for itself without quotes does so between quotes as well. -/
lemma isStringChar_of_urlChar {quote c : Char} (hquote : quote = '"' ∨ quote = '\'')
    (h : isUrlChar c = true) : isStringChar quote c = true := by
  have hne : ∀ d, isUrlChar d = false → c ≠ d := by
    rintro d hd rfl
    exact Bool.false_ne_true (hd.symm.trans h)
  have hc : c ≠ quote := hne quote (by obtain rfl | rfl := hquote <;> rfl)
  have hbreak : isBreakChar c = false := by
    simp [isBreakChar, hne '\n' rfl, hne '\r' rfl, hne '\x0C' rfl]
  simp [isStringChar, hc, hne '\\' rfl, hbreak]

/-- Nothing that can start a parameter without quotes is a blank or a quote. -/
lemma opens_plain {c : Char} (h : isUrlChar c = true ∨ c = '\\' ∨ c = ')') :
    isBlankChar c = false ∧ (c == '"' || c == '\'') = false := by
  obtain hurl | rfl | rfl := h
  · constructor
    · by_contra hblank
      rw [isUrlChar_of_blank (Bool.not_eq_false _ ▸ hblank)] at hurl
      cases hurl
    · by_contra hquote
      simp only [Bool.not_eq_false, Bool.or_eq_true, beq_iff_eq] at hquote
      obtain rfl | rfl := hquote <;> cases hurl
  · exact ⟨rfl, rfl⟩
  · exact ⟨rfl, rfl⟩

section Parameter

variable {ws : List Written} {front blanks v : List Char} (h : WritesUrl ws blanks)
include h

/-- A parameter without quotes, or the parenthesis behind it, starts with no blank and no quote. -/
lemma head?_parameter (hempty : ws = [] → blanks = []) :
    ∀ c ∈ (ws.flatMap text ++ (blanks ++ ')' :: v)).head?,
      isBlankChar c = false ∧ (c == '"' || c == '\'') = false := by
  intro c hc
  apply opens_plain
  cases ws with
  | nil =>
    rw [hempty rfl] at hc
    cases hc
    exact .inr (.inr rfl)
  | cons w ws =>
    rw [List.flatMap_cons, List.append_assoc, head?_text_append] at hc
    exact (head?_text (h.plain w List.mem_cons_self) c hc).imp_right .inl

/-- A parameter without quotes runs up to the closing parenthesis and the blanks in front of it. -/
lemma readRun_parameter :
    let run := readRun isUrl false (encode (ws.flatMap text ++ (blanks ++ ')' :: v)))
    run.text = String.ofList (ws.flatMap value) ∧ skipBlanks run.rest = 0x29 :: encode v := by
  have hends : Along EndsBefore (blanks ++ ')' :: v) ws := by
    refine along_endsBefore h.ends ?_
    cases blanks with
    | nil => rintro _ ⟨⟩; exact .inr (by decide)
    | cons c blanks => exact fun c hc => .inl hc
  obtain ⟨more, hmore, hread⟩ :=
    gathers_parameter h.plain h.noContinuation hends h.blank (s := ')' :: v) (by rintro ⟨⟩)
  have hstop : ∀ b ∈ (encode (more ++ ')' :: v)).head?, isUrl b = false := by
    refine forall_head?_encode fun c hc => ?_
    have hc : isUrlChar c = false ∧ c ≠ '\\' := by
      cases more with
      | nil => cases hc; decide
      | cons d more =>
        cases hc
        have hblank := hmore c List.mem_cons_self
        exact ⟨isUrlChar_of_blank hblank, by rintro rfl; cases hblank⟩
    exact readsPlain_url.not_bytes (isUrlChar_ascii hc.1) hc.1 hc.2
  obtain ⟨hbytes, hrest⟩ := hread.run hstop
  refine ⟨Run.text_of_bytes hbytes, ?_⟩
  rw [hrest, skipBlanks_encode hmore (by rintro _ ⟨⟩; rfl)]
  rfl

variable (hfront : ∀ c ∈ front, isBlankChar c = true)
include hfront

/-- A url without quotes is what its parameter is written for. -/
lemma cutUrl_parameter (hempty : ws = [] → blanks = []) : ∃ runs,
    cutUrl (encode (front ++ (ws.flatMap text ++ (blanks ++ ')' :: v)))) =
      { kind := .url (String.ofList (ws.flatMap value)), rest := encode v, runs } := by
  have hhead := head?_parameter h hempty (v := v)
  have hskip := skipBlanks_encode hfront fun c hc => (hhead c hc).1
  have hquote : ∀ b ∈ (encode (ws.flatMap text ++ (blanks ++ ')' :: v))).head?, isQuote b = false :=
    forall_head?_encode fun c hc => matches_quote.not_bytes isQuote_ascii (hhead c hc).2
  have hne : encode (ws.flatMap text ++ (blanks ++ ')' :: v)) ≠ [] :=
    List.ne_nil_of_mem (List.mem_flatMap.mpr ⟨')', by simp, List.mem_cons_self⟩)
  rw [← hskip] at hquote hne
  obtain ⟨htext, hclose⟩ := readRun_parameter h (v := v)
  rw [cutUrl_plain hne hquote, hskip, hclose, closeUrl_paren, htext]
  exact ⟨_, rfl⟩

/-- A url in quotes is what its parameter is written for. -/
lemma cutUrl_string {quote : Char} (hquote : quote = '"' ∨ quote = '\'') : ∃ runs,
    cutUrl (encode (front ++ (quote :: (ws.flatMap text ++ quote :: (blanks ++ ')' :: v))))) =
      { kind := .url (String.ofList (ws.flatMap value)), rest := encode v, runs } := by
  obtain ⟨byte, hbyte⟩ := exists_quote hquote
  have hplain : ∀ w ∈ ws, w.plainIn (isStringChar quote) = true := by
    intro w hw
    have hurl := h.plain w hw
    cases w with
    | plain c => exact isStringChar_of_urlChar hquote hurl
    | escaped | numeric | continuation => rfl
  have hends : Along EndsBefore [] ws := along_endsBefore h.ends (by rintro _ ⟨⟩)
  obtain ⟨htext, hrest⟩ := readQuoted_written hbyte (s := quote :: (blanks ++ ')' :: v)) hplain
    hends (by rintro _ ⟨⟩; rfl)
  have hskip := skipBlanks_encode hfront
    (s := quote :: (ws.flatMap text ++ quote :: (blanks ++ ')' :: v)))
    (by rintro _ ⟨⟩; exact hbyte.ends.1)
  rw [hbyte.encode_cons] at hskip hrest
  have hclose : skipBlanks (encode (blanks ++ ')' :: v)) = 0x29 :: encode v :=
    skipBlanks_encode h.blank (by rintro _ ⟨⟩; rfl)
  rw [cutUrl_quoted hskip hbyte.isQuote hrest, hclose, closeUrl_paren, htext]
  exact ⟨_, rfl⟩

/-- The parameter of a url is the same with and without quotes. -/
lemma cutUrl_written : ∀ parameter ∈ [ws.flatMap text, '"' :: ws.flatMap text ++ ['"'],
      '\'' :: ws.flatMap text ++ ['\'']],
    ∃ runs, cutUrl (encode (front ++ parameter ++ blanks ++ ')' :: v)) =
      { kind := .url (String.ofList (ws.flatMap value)), rest := encode v, runs } := by
  simp only [List.forall_mem_cons, List.append_assoc, List.cons_append]
  refine ⟨?_, cutUrl_string h hfront (.inl rfl), cutUrl_string h hfront (.inr rfl),
    List.forall_mem_nil _⟩
  cases ws with
  | nil =>
    -- Without a parameter, all blanks stand in front of the parenthesis.
    have hnone : WritesUrl [] [] :=
      ⟨List.forall_mem_nil _, List.forall_mem_nil _, trivial, List.forall_mem_nil _⟩
    have hblanks := List.forall_mem_append.mpr ⟨hfront, h.blank⟩
    have hempty := cutUrl_parameter hnone hblanks (fun _ => rfl) (v := v)
    rwa [List.append_assoc] at hempty
  | cons w ws => exact cutUrl_parameter h hfront (by rintro ⟨⟩)

end Parameter

/-- A letter is the first character of a name in any letter case. -/
lemma startsNameChar_of_toLower {c : Char} (h : c.toLower ∈ ['u', 'r', 'l']) :
    startsNameChar c = true := by
  have hall : ∀ n < 0x80, (Char.ofNat n).toLower ∈ ['u', 'r', 'l'] →
      startsNameChar (Char.ofNat n) = true := by decide +kernel
  have hlower : ['u', 'r', 'l'].all (·.toNat < 0x80) = true := by decide
  have hascii := ascii_of_toLower (of_decide_eq_true (List.all_eq_true.mp hlower _ h))
  rw [← Char.ofNat_toNat c] at h ⊢
  exact hall c.toNat hascii h

/-- The name of a url in any letter case and the parenthesis behind it start one. -/
lemma cut_url {name : String} (hname : name.toLower = "url") (s : List Char) :
    let url := encode (name.toList ++ '(' :: s)
    url ≠ [] ∧ tokenStart url = url ∧
      cut url = { cutUrl (encode s) with
        runs := readIdent url :: (cutUrl (encode s)).runs } := by
  have hlower : name.toList.map Char.toLower = ['u', 'r', 'l'] := by
    rw [← String.toList_map]
    exact congrArg String.toList hname
  -- what is a letter of `url` in lower case is a letter itself, so it starts a name
  have hletters : ∀ c ∈ name.toList, startsNameChar c = true :=
    fun c hc => startsNameChar_of_toLower (hlower ▸ List.mem_map_of_mem hc)
  have hnil : name.toList ≠ [] := by
    intro hnil
    rw [hnil] at hlower
    cases hlower
  have hwrites : WritesIdentifier (name.toList.map .plain) ('(' :: s) :=
    writesIdentifier_plain hnil hletters (by rintro _ ⟨⟩; decide)
  obtain ⟨htext, hvalue⟩ := flatMap_plain name.toList
  have hdash : (name.toList.map plain).flatMap value ≠ ['-'] := by
    rw [hvalue]
    intro hdash
    exact absurd (hletters '-' (hdash ▸ List.mem_singleton_self _)) (by decide)
  have hident := hwrites.ident?_encode hdash
  obtain ⟨-, hrest⟩ := hwrites.readIdent_encode
  obtain ⟨hne, hstart, hcut⟩ := cut_ident_of_startsIdent hwrites.startsIdent_encode
  rw [htext] at hident hrest hne hstart hcut
  rw [hvalue, String.ofList_toList] at hident
  exact ⟨hne, hstart, hcut.trans (cutIdentLike_url hident hrest hname)⟩

end Lexer

/-- A url is the same with and without quotes, whatever blanks stand around its parameter and in any
letter case of its name, and the scanner then stands on its closing parenthesis. -/
theorem urls_agree (sc : Scanner) (name : String) (hname : name.toLower = "url")
    (front blanks : List Char) (hfront : ∀ c ∈ front, isBlankChar c = true) (ws : List Written)
    (h : WritesUrl ws blanks) (v : List Char) :
    ∀ parameter ∈ [ws.flatMap text, '"' :: ws.flatMap text ++ ['"'],
        '\'' :: ws.flatMap text ++ ['\'']],
      let url := name.toList ++ '(' :: (front ++ parameter ++ blanks)
      sc.rest = encode (url ++ ')' :: v) →
        sc.Yields (.url (String.ofList (ws.flatMap value))) (encode (url ++ [')'])).length := by
  intro parameter hparameter url hrest
  obtain ⟨runs, hurl⟩ := cutUrl_written h hfront (v := v) parameter hparameter
  obtain ⟨hne, hstart, hcut⟩ := cut_url hname (front ++ parameter ++ blanks ++ ')' :: v)
  have hsplit : sc.rest = encode (url ++ [')']) ++ encode v := by
    rw [hrest, ← encode_append]
    simp
  have hassoc : name.toList ++ '(' :: (front ++ parameter ++ blanks ++ ')' :: v) =
      url ++ ')' :: v := by simp [url]
  rw [hassoc, ← hrest] at hne hstart hcut
  rw [hurl] at hcut
  exact Scanner.yields_of_rest hne hstart hcut hsplit rfl rfl

/-- The pieces of `é\)\41` and a carriage return. -/
def escapedUrl : List Written :=
  [.plain 'é', .escaped ')' rfl rfl,
    .numeric ⟨['4', '1'], rfl, List.cons_ne_nil _ _, by decide⟩ (some (.lineBreak .cr))]

/-- The sample is the writing of a parameter in front of a newline. -/
lemma writesUrl_escapedUrl : WritesUrl escapedUrl ['\n'] :=
  ⟨by decide, by decide, by decide, List.forall_mem_singleton.mpr rfl⟩

/-- The line feed in front of the parenthesis belongs to the escape if no quote stands between
them. -/
theorem urls_agree_escapedUrl :
    (Scanner.ofText "uRL( é\\)\\41\r\n)x" .origin).Yields (.url "é)A") 15 ∧
    (Scanner.ofText "uRL( \"é\\)\\41\r\"\n)x" .origin).Yields (.url "é)A") 17 := by
  have hvalue : String.ofList (escapedUrl.flatMap value) = "é)A" := by decide +kernel
  have hplain := urls_agree (.ofText "uRL( é\\)\\41\r\n)x" .origin) "uRL" (by decide +kernel)
    [' '] ['\n'] (List.forall_mem_singleton.mpr rfl) escapedUrl writesUrl_escapedUrl ['x'] _
    List.mem_cons_self (by decide +kernel)
  have hquoted := urls_agree (.ofText "uRL( \"é\\)\\41\r\"\n)x" .origin) "uRL" (by decide +kernel)
    [' '] ['\n'] (List.forall_mem_singleton.mpr rfl) escapedUrl writesUrl_escapedUrl ['x'] _
    (List.mem_cons_of_mem _ List.mem_cons_self) (by decide +kernel)
  rw [hvalue] at hplain hquoted
  exact ⟨hplain, hquoted⟩

end CssSyntax
