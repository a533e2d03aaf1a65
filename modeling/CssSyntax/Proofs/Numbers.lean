import CssSyntax.Proofs.Extent

/-!
# Numbers

A number is cut off as the longest one that stands at the place of its token (`longestNumber`): a
point belongs to it only with a digit behind it, and so does what follows a second point. What the
number measures is said by what stands directly behind it. Main statement: which tokens are numbers,
and how number and measure are read off the text (`numbers_are_longest`).
-/

namespace CssSyntax

open Byte Utf8 Lexer

/-- The bytes of a number: digits, or a point with digits behind it and maybe others in front. -/
inductive IsNumber : List UInt8 → Prop where
  | whole {digits} :
    digits ≠ [] → (∀ b ∈ digits, isDigit b = true) → IsNumber digits
  | fraction {digits decimals} :
    (∀ b ∈ digits, isDigit b = true) → decimals ≠ [] → (∀ b ∈ decimals, isDigit b = true) →
      IsNumber (digits ++ 0x2E :: decimals)

/-- A number at the front of some bytes that no other number there is longer than. -/
structure LongestNumber (w s : List UInt8) : Prop where
  isNumber : IsNumber w
  isPrefix : w <+: s
  longest : ∀ v, IsNumber v → v <+: s → v.length ≤ w.length

/-- Whether a token starts with a number. -/
def Kind.isNumeric : Kind → Bool
  | numeric _ _ => true
  | _ => false

/-- The units that are known, and what each of them measures. -/
def Measure.known : List (String × Measure) :=
  [("em", Measure.em), ("ex", Measure.ex)] ++
    ["px", "cm", "mm", "in", "pt", "pc"].map (fun u => (u, Measure.length u)) ++
    ["deg", "rad", "grad"].map (fun u => (u, Measure.angle u)) ++
    ["ms", "s"].map (fun u => (u, Measure.time u)) ++
    ["hz", "khz"].map (fun u => (u, Measure.frequency u))

/-- A number is not empty. -/
lemma IsNumber.ne_nil {w : List UInt8} (h : IsNumber w) : w ≠ [] := by
  cases h with
  | whole hne => exact hne
  | fraction => exact List.append_ne_nil_of_right_ne_nil _ (List.cons_ne_nil _ _)

namespace Lexer

/-- A fraction is a point with all digits behind it, of which there is one at least. -/
lemma fraction_cases (s : List UInt8) : fraction s = [] ∨
    ∃ t : List UInt8, t.takeWhile isDigit ≠ [] ∧ fraction s = 0x2E :: t.takeWhile isDigit := by
  cases s with
  | nil => exact .inl rfl
  | cons b t =>
    rw [fraction]
    split
    · next h =>
      obtain ⟨hb, hdigit⟩ := Bool.and_eq_true _ _ ▸ h
      obtain rfl := of_decide_eq_true hb
      refine .inr ⟨t, ?_, rfl⟩
      cases t with
      | nil => cases hdigit
      | cons c t =>
        have hc : isDigit c = true := hdigit
        rw [List.takeWhile_cons_of_pos hc]
        exact List.cons_ne_nil _ _
    · exact .inl rfl

/-- What is read as a number is one. -/
lemma isNumber_number {s : List UInt8} (h : number s ≠ []) : IsNumber (number s) := by
  have hdigits : ∀ t : List UInt8, ∀ b ∈ t.takeWhile isDigit, isDigit b = true :=
    fun t b hb => List.mem_takeWhile_imp hb
  unfold number at h ⊢
  obtain hnone | ⟨t, ht, hfraction⟩ := fraction_cases (s.dropWhile isDigit)
  · rw [hnone, List.append_nil] at h ⊢
    exact .whole h (hdigits s)
  · rw [hfraction]
    exact .fraction (hdigits s) ht (hdigits t)

/-- Bytes that all belong to a class are taken with those behind them that do. -/
lemma prefix_takeWhile {p : UInt8 → Bool} {v : List UInt8} (t : List UInt8)
    (hv : ∀ b ∈ v, p b = true) : v <+: (v ++ t).takeWhile p := by
  rw [List.takeWhile_append_of_pos hv]
  exact List.prefix_append v _

/-- Every number at the front of some bytes is a part of the one that is cut off there. -/
lemma prefix_number {v s : List UInt8} (hv : IsNumber v) (h : v <+: s) : v <+: number s := by
  obtain ⟨t, rfl⟩ := h
  cases hv with
  | whole _ hdigits => exact (prefix_takeWhile t hdigits).trans (List.prefix_append _ _)
  | @fraction digits decimals hdigits hne hdecimals =>
    obtain ⟨c, more, rfl⟩ := List.exists_cons_of_ne_nil hne
    have hc : isDigit c = true := hdecimals c List.mem_cons_self
    have hfraction : fraction (0x2E :: (c :: more ++ t)) =
        0x2E :: (c :: more ++ t).takeWhile isDigit := if_pos (by simp [hc])
    have hpoint : isDigit 0x2E = false := rfl
    rw [number, List.append_assoc, List.cons_append, List.takeWhile_append_of_pos hdigits,
      List.dropWhile_append_of_pos hdigits, List.takeWhile_cons_of_neg (Bool.eq_false_iff.mp hpoint),
      List.dropWhile_cons_of_neg (Bool.eq_false_iff.mp hpoint), hfraction, List.append_nil]
    exact (List.prefix_append_right_inj digits).mpr
      (List.cons_prefix_cons.mpr ⟨rfl, prefix_takeWhile t hdecimals⟩)

/-- What is read as a number is the longest one. -/
lemma longestNumber {s : List UInt8} (h : number s ≠ []) : LongestNumber (number s) s :=
  ⟨isNumber_number h, number_isPrefix s, fun _ hv hprefix => (prefix_number hv hprefix).length_le⟩

/-- A number starts where some number stands in front. -/
lemma startsNumber_iff {s : List UInt8} :
    startsNumber s = true ↔ ∃ w, IsNumber w ∧ w <+: s := by
  have hstarts : startsNumber s = true ↔ number s ≠ [] := by simp [startsNumber]
  rw [hstarts]
  constructor
  · intro h
    exact ⟨number s, isNumber_number h, number_isPrefix s⟩
  · rintro ⟨w, hw, hprefix⟩ hnil
    have hempty := prefix_number hw hprefix
    rw [hnil] at hempty
    exact hw.ne_nil (List.prefix_nil.mp hempty)

/-- The bytes of a number are read back from its value. -/
lemma bytes_decode_number (s : List UInt8) : bytes (decode (number s)) = number s :=
  bytes_decode_ascii (number_ascii s)

/-- Digits and the point start no other token than a number, as far as they start one. -/
lemma firstOfNumber {b : UInt8} (h : isDigit b = true ∨ b = 0x2E) :
    isBlank b = false ∧ isQuote b = false ∧ b ∉ [0x40, 0x23, 0x21] ∧
      ∀ entry ∈ symbols, entry.1.head? ≠ some b := by
  have hall : ∀ c ∈ 0x2E :: (List.range' 0x30 10).map UInt8.ofNat,
      isBlank c = false ∧ isQuote c = false ∧ c ∉ [0x40, 0x23, 0x21] ∧
        ∀ entry ∈ symbols, entry.1.head? ≠ some c := by decide +kernel
  apply hall
  obtain hdigit | rfl := h
  · simp only [isDigit, Bool.and_eq_true, decide_eq_true_eq, UInt8.le_iff_toNat_le] at hdigit
    refine List.mem_cons_of_mem _ (List.mem_map.mpr ⟨b.toNat, ?_, b.ofNat_toNat⟩)
    exact List.mem_range'_1.mpr ⟨hdigit.1, Nat.lt_succ_of_le hdigit.2⟩
  · exact List.mem_cons_self

/-- A byte that starts no spelling of the table starts no symbol. -/
lemma symbol?_eq_none {b : UInt8} (s : List UInt8)
    (h : ∀ entry ∈ symbols, entry.1.head? ≠ some b) : symbol? (b :: s) = none := by
  refine List.find?_eq_none.mpr fun entry hmem hfound => ?_
  have hpos : ∀ entry ∈ symbols, entry.1 ≠ [] := by decide
  obtain ⟨c, more, hspelling⟩ := List.exists_cons_of_ne_nil (hpos entry hmem)
  obtain ⟨t, ht⟩ := List.isPrefixOf_iff_prefix.mp hfound
  rw [hspelling, List.cons_append] at ht
  refine h entry hmem ?_
  rw [hspelling, ← (List.cons.inj ht).1, List.head?_cons]

/-- Where a number starts, the next token is cut as one. -/
lemma cut_of_startsNumber {s : List UInt8} (h : startsNumber s = true) : cut s = cutNumeric s := by
  cases s with
  | nil => cases h
  | cons b s =>
    have hb : isDigit b = true ∨ b = 0x2E := by
      by_contra hno
      rw [not_or, Bool.not_eq_true] at hno
      have hnumber : number (b :: s) = [] := by simp [number, fraction, hno]
      rw [startsNumber, hnumber] at h
      cases h
    obtain ⟨hblank, hquote, hmarks, hsymbols⟩ := firstOfNumber hb
    simp only [List.mem_cons, List.not_mem_nil, or_false, not_or] at hmarks
    rw [cut, hblank, symbol?_eq_none s hsymbols, hquote, h]
    simp [hmarks]

/-- A numeric token starts with a number. -/
lemma startsNumber_of_isNumeric {s : List UInt8} (h : (cut s).kind.isNumeric = true) :
    startsNumber s = true := by
  cases s with
  | nil => cases h
  | cons b s =>
    revert h
    apply kind_cut_elim (P := fun kind => kind.isNumeric = true → startsNumber (b :: s) = true)
    case symbol =>
      have hall : ∀ entry ∈ symbols, entry.2.isNumeric = false := by decide
      exact fun entry hmem _ h => absurd h (Bool.eq_false_iff.mp (hall entry hmem))
    case atKeyword =>
      have hall : ∀ kind ∈ atKeywords, kind.isNumeric = false := by decide
      exact fun _ kind hmem h => absurd h (Bool.eq_false_iff.mp (hall kind hmem))
    case numeric => exact fun hstarts _ _ _ => hstarts
    case blanks | string | hash | important | named | lone => simp [Kind.isNumeric]

end Lexer

/-- A unit that is known measures what it stands for in any letter case. Any other is kept. -/
lemma Measure.ofUnit_spec (name : String) : (name.toLower, ofUnit name) ∈ known ∨
    (ofUnit name = .dimension name ∧ name.toLower ∉ known.map Prod.fst) := by
  unfold ofUnit
  dsimp only
  generalize name.toLower = lower
  split_ifs with hem hex hlength hangle htime hfrequency
  · subst hem
    exact .inl (by decide)
  · subst hex
    exact .inl (by decide)
  · exact .inl (by simpa [known] using hlength)
  · exact .inl (by simpa [known] using hangle)
  · exact .inl (by simpa [known] using htime)
  · exact .inl (by simpa [known] using hfrequency)
  · simp only [List.mem_cons, List.not_mem_nil, or_false, not_or] at hlength hangle htime hfrequency
    refine .inr ⟨rfl, ?_⟩
    simp [known, hem, hex, hlength, hangle, htime, hfrequency]

/-- A unit measures more than a number and a percentage. -/
lemma Measure.ofUnit_ne (name : String) :
    ofUnit name ≠ .number ∧ ofUnit name ≠ .percentage := by
  obtain hknown | ⟨hunit, -⟩ := ofUnit_spec name
  · have hall : ∀ entry ∈ known, entry.2 ≠ .number ∧ entry.2 ≠ .percentage := by decide
    exact hall _ hknown
  · rw [hunit]
    exact ⟨nofun, nofun⟩

/-- A unit that is kept as it is written is not known. -/
lemma Measure.not_known_of_dimension {name unit : String} (h : ofUnit name = .dimension unit) :
    unit.toLower ∉ known.map Prod.fst := by
  obtain hknown | ⟨hunit, hnot⟩ := ofUnit_spec name
  · rw [h] at hknown
    simp [known] at hknown
  · rw [h] at hunit
    cases hunit
    exact hnot

/-- How a scanner reads a token as a number: the number is the longest one that stands at the place of
the token, and what it measures is said by the bytes behind it. These are a percent sign, or an
identifier that is taken as the unit, or else nothing is taken of them. -/
structure Scanner.ReadsNumber (sc : Scanner) (value : String) (measure : Measure)
    (behind : List UInt8) : Prop where
  ahead : sc.ahead = bytes value ++ behind
  longest : LongestNumber (bytes value) sc.ahead
  percentage : measure = .percentage ↔ behind.head? = some 0x25
  number : behind.head? ≠ some 0x25 → (measure = .number ↔ ident? behind = none)
  cursor : measure = .number → sc.next.source.read = sc.position + (bytes value).length
  unit : behind.head? ≠ some 0x25 → ∀ name, ident? behind = some name →
    (name.toLower, measure) ∈ Measure.known ∨
      (measure = .dimension name ∧ name.toLower ∉ Measure.known.map Prod.fst)
  dimension : ∀ name, measure = .dimension name → name.toLower ∉ Measure.known.map Prod.fst

namespace Lexer

/-- A number and the bytes behind it are all bytes. -/
lemma number_append_behindNumber (s : List UInt8) : number s ++ behindNumber s = s := by
  have htake := List.prefix_iff_eq_take.mp (number_isPrefix s)
  conv_lhs => rw [htake]
  exact List.take_append_drop _ s

section CutNumeric

variable {s : List UInt8}

/-- A percent sign behind a number makes it a percentage. -/
lemma cutNumeric_percentage (h : (behindNumber s).head? = some 0x25) : cutNumeric s =
    { kind := .numeric (decode (number s)) .percentage, rest := (behindNumber s).tail } := by
  rw [behindNumber] at h
  rw [cutNumeric, h, behindNumber]
  simp

variable (h : (behindNumber s).head? ≠ some 0x25)
include h

/-- A number without an identifier behind it is a plain one. -/
lemma cutNumeric_number (hident : ident? (behindNumber s) = none) : cutNumeric s =
    { kind := .numeric (decode (number s)) .number, rest := behindNumber s,
      runs := [readIdent (behindNumber s)] } := by
  rw [behindNumber] at h hident
  rw [cutNumeric, hident]
  exact if_neg h

/-- An identifier behind a number is its unit. -/
lemma cutNumeric_unit {name : String} (hident : ident? (behindNumber s) = some name) :
    cutNumeric s =
      { kind := .numeric (decode (number s)) (.ofUnit name), rest := (readIdent (behindNumber s)).rest,
        runs := [readIdent (behindNumber s)] } := by
  rw [behindNumber] at h hident
  rw [cutNumeric, hident]
  exact if_neg h

end CutNumeric

end Lexer

namespace Scanner

variable {sc : Scanner}

/-- Nothing of what stands behind a number is taken, if it is neither a percent sign nor a unit. -/
lemma read_number (h : startsNumber sc.ahead = true)
    (hpercent : (behindNumber sc.ahead).head? ≠ some 0x25)
    (hident : ident? (behindNumber sc.ahead) = none) :
    sc.next.source.read = sc.position + (number sc.ahead).length := by
  have hlength := sc.length_ahead
  have hparts := congrArg List.length (number_append_behindNumber sc.ahead)
  rw [List.length_append] at hparts
  rw [read_next, cut_of_startsNumber h, cutNumeric_number hpercent hident]
  simp only [Bool.false_eq_true, if_false]
  omega

/-- Where a number starts, a scanner reads it with what stands behind it. -/
lemma readsNumber (h : startsNumber sc.ahead = true) : ∃ measure,
    sc.next.token.kind = .numeric (decode (number sc.ahead)) measure ∧
      sc.ReadsNumber (decode (number sc.ahead)) measure (behindNumber sc.ahead) := by
  have hcut := cut_of_startsNumber h
  have hvalue := bytes_decode_number sc.ahead
  have hahead : sc.ahead = bytes (decode (number sc.ahead)) ++ behindNumber sc.ahead := by
    rw [hvalue, number_append_behindNumber]
  have hlongest : LongestNumber (bytes (decode (number sc.ahead))) sc.ahead := by
    rw [hvalue]
    exact longestNumber (by simpa [startsNumber] using h)
  rw [kind_next]
  -- What stands behind the number decides: a percent sign first, then a unit.
  by_cases hpercent : (behindNumber sc.ahead).head? = some 0x25
  · rw [hcut, cutNumeric_percentage hpercent]
    refine ⟨_, rfl, hahead, hlongest, iff_of_true rfl hpercent, absurd hpercent, ?_,
      absurd hpercent, ?_⟩
    · rintro ⟨⟩
    · rintro _ ⟨⟩
  · cases hident : ident? (behindNumber sc.ahead) with
    | none =>
      have hcursor := read_number h hpercent hident
      rw [← hvalue] at hcursor
      rw [hcut, cutNumeric_number hpercent hident]
      refine ⟨_, rfl, hahead, hlongest, iff_of_false ?_ hpercent,
        fun _ => iff_of_true rfl hident, fun _ => hcursor, ?_, ?_⟩
      · rintro ⟨⟩
      · intro _ name hname
        rw [hident] at hname
        cases hname
      · rintro _ ⟨⟩
    | some name =>
      obtain ⟨hnumber, hpercentage⟩ := Measure.ofUnit_ne name
      rw [hcut, cutNumeric_unit hpercent hident]
      refine ⟨_, rfl, hahead, hlongest, iff_of_false hpercentage hpercent,
        fun _ => iff_of_false hnumber ?_, fun hmeasure => absurd hmeasure hnumber, ?_,
        fun _ => Measure.not_known_of_dimension⟩
      · rw [hident]
        rintro ⟨⟩
      · intro _ unit hunit
        obtain rfl := Option.some.inj (hident.symm.trans hunit)
        exact Measure.ofUnit_spec name

end Scanner

/-- A token is a number if and only if a number stands at its place. It is the longest one there, and
what it measures is said by what follows it directly: a percent sign, or else an identifier, which is
a unit in any letter case and one that is kept if it is not known, or nothing. -/
theorem numbers_are_longest (sc : Scanner) :
    ((∃ value measure, sc.next.token.kind = .numeric value measure) ↔
      ∃ w, IsNumber w ∧ w <+: sc.ahead) ∧
    ∀ value measure, sc.next.token.kind = .numeric value measure →
      ∃ behind, sc.ReadsNumber value measure behind := by
  have hstarts : ∀ value measure, sc.next.token.kind = .numeric value measure →
      startsNumber sc.ahead = true := by
    intro value measure h
    apply startsNumber_of_isNumeric
    rw [← sc.kind_next, h]
    rfl
  refine ⟨⟨?_, ?_⟩, ?_⟩
  · rintro ⟨value, measure, h⟩
    exact startsNumber_iff.mp (hstarts value measure h)
  · intro h
    obtain ⟨measure, hkind, -⟩ := Scanner.readsNumber (startsNumber_iff.mpr h)
    exact ⟨_, measure, hkind⟩
  · intro value measure h
    obtain ⟨measure', hkind, hreads⟩ := Scanner.readsNumber (hstarts value measure h)
    cases hkind.symm.trans h
    exact ⟨_, hreads⟩

/-- A second point starts a number of its own, and a pair of dashes is no unit. -/
theorem numbers_are_longest_points :
    (((Scanner.ofText "1.5.25PX" .origin).after 1).next.token.kind =
        .numeric ".25" (.length "px") ∧
      ∃ behind,
        ((Scanner.ofText "1.5.25PX" .origin).after 1).ReadsNumber ".25" (.length "px") behind) ∧
    ((Scanner.ofText "1.--x" .origin).next.token.kind = .numeric "1" .number ∧
      ∃ behind, (Scanner.ofText "1.--x" .origin).ReadsNumber "1" .number behind) ∧
    ((Scanner.ofText "07--x" .origin).next.token.kind = .numeric "07" .number ∧
      ∃ behind, (Scanner.ofText "07--x" .origin).ReadsNumber "07" .number behind) := by
  have hsecond : ((Scanner.ofText "1.5.25PX" .origin).after 1).next.token.kind =
      .numeric ".25" (.length "px") := by decide +kernel
  have hpoint : (Scanner.ofText "1.--x" .origin).next.token.kind = .numeric "1" .number := by
    decide +kernel
  have hdashes : (Scanner.ofText "07--x" .origin).next.token.kind = .numeric "07" .number := by
    decide +kernel
  exact ⟨⟨hsecond, (numbers_are_longest _).2 _ _ hsecond⟩,
    ⟨hpoint, (numbers_are_longest _).2 _ _ hpoint⟩,
    ⟨hdashes, (numbers_are_longest _).2 _ _ hdashes⟩⟩

end CssSyntax
