import CssSyntax.Proofs.Pieces
import CssSyntax.Proofs.Separators

/-!
# Character boundaries

A scanner moves over the bytes of a text. Every token that starts on a boundary between two
characters ends on one (`sound_cut`), with one exception: a url takes the byte that stands in the
place of its closing parenthesis, and leaves the rest of the character if this byte is not ASCII
(`valid_cutUrl_iff`). The token behind such a url is a name that starts inside the character
(`cut_inside`). Main statement: the characters of a text are left untouched exactly as long as no
url is broken in this way (`characters_untouched_iff`).
-/

namespace CssSyntax

open Byte Utf8

/-- The texts that a token carries, its value and its unit. -/
def Kind.texts (kind : Kind) : List String :=
  kind.value?.toList ++ kind.unit?.toList

namespace Lexer

/-- Behind blanks there are whole characters. -/
lemma valid_skipBlanks {s : List UInt8} (hs : Valid s) : Valid (skipBlanks s) := by
  induction s with
  | nil => exact hs
  | cons b s ih =>
    cases hb : isBlank b with
    | true =>
      rw [skipBlanks, List.dropWhile_cons_of_pos hb]
      exact ih (hs.behind List.suffix_rfl (isBlank_ascii hb))
    | false =>
      rw [skipBlanks, List.dropWhile_cons_of_neg (Bool.eq_false_iff.mp hb)]
      exact hs

/-- Behind comments there are whole characters. -/
lemma valid_skipComments {s : List UInt8} (hs : Valid s) : Valid (skipComments s) := by
  fun_induction skipComments s with
  | case1 s _ _ _ ih =>
    apply ih
    -- a comment that is closed ends behind an ASCII byte
    obtain ⟨body, hbody, -⟩ | ⟨hnil, -⟩ := closeComment_cases ((skipBlanks s).drop 2)
    · have hclosed : 0x2F :: closeComment ((skipBlanks s).drop 2) <:+ (skipBlanks s).drop 2 :=
        ⟨body ++ [0x2A], by simpa using hbody.symm⟩
      exact (valid_skipBlanks hs).behind (hclosed.trans (List.drop_suffix 2 _)) (by decide)
    · rw [hnil]
      exact valid_nil
  | case2 => exact hs

/-- A token starts with a whole character. -/
lemma valid_tokenStart {s : List UInt8} (hs : Valid s) : Valid (tokenStart s) := by
  unfold tokenStart
  dsimp only
  split
  · exact valid_skipBlanks (valid_skipComments hs)
  · exact valid_skipComments hs

/-- A fraction is the front of what it is read from. -/
lemma fraction_isPrefix (s : List UInt8) : fraction s <+: s := by
  cases s with
  | nil => exact List.prefix_rfl
  | cons b s =>
    rw [fraction]
    split
    · exact List.cons_prefix_cons.mpr ⟨rfl, List.takeWhile_prefix isDigit⟩
    · exact List.nil_prefix

/-- A number is the front of what it is read from. -/
lemma number_isPrefix (s : List UInt8) : number s <+: s := by
  have h := (List.prefix_append_right_inj (s.takeWhile isDigit)).mpr
    (fraction_isPrefix (s.dropWhile isDigit))
  rwa [List.takeWhile_append_dropWhile] at h

/-- A number is made of ASCII bytes. -/
lemma number_ascii (s : List UInt8) : ∀ b ∈ number s, b.toNat < 0x80 := by
  have hdigits : ∀ t : List UInt8, ∀ b ∈ t.takeWhile isDigit, b.toNat < 0x80 :=
    fun t b hb => isDigit_ascii (List.mem_takeWhile_imp hb)
  have hfraction : ∀ t, ∀ b ∈ fraction t, b.toNat < 0x80 := by
    intro t
    cases t with
    | nil => exact List.forall_mem_nil _
    | cons c t =>
      rw [fraction]
      split
      · next h =>
        obtain rfl : c = 0x2E := of_decide_eq_true (Bool.and_eq_true _ _ ▸ h).1
        exact List.forall_mem_cons.mpr ⟨by decide, hdigits t⟩
      · exact List.forall_mem_nil _
  exact List.forall_mem_append.mpr ⟨hdigits s, hfraction _⟩

/-- A lexeme with faithful runs that leaves whole characters. -/
structure Lexeme.Sound (cs : List Char) (lexeme : Lexeme) : Prop where
  runs : ∀ run ∈ lexeme.runs, Faithful cs run
  valid : Valid lexeme.rest

section Sound

variable {cs : List Char} {s : List UInt8} (hs : Valid s) (hsuffix : s <:+ encode cs)
include hs

/-- A symbol leaves whole characters, and nothing of it is run together. -/
lemma sound_symbol {spelling : List UInt8} {kind : Kind} (h : symbol? s = some (spelling, kind)) :
    (Lexeme.take kind spelling.length s).Sound cs := by
  have hall : ∀ entry ∈ symbols, entry.1.all (·.toNat < 0x80) = true := by decide
  have hfound : spelling <+: s := by
    unfold symbol? at h
    have hstarts := List.find?_some h
    exact List.isPrefixOf_iff_prefix.mp hstarts
  refine ⟨List.forall_mem_nil _, hs.drop _ ?_⟩
  rw [← List.prefix_iff_eq_take.mp hfound]
  intro b hb
  exact of_decide_eq_true (List.all_eq_true.mp (hall _ (List.mem_of_find?_eq_some h)) b hb)

include hsuffix

/-- A string is sound. -/
lemma sound_cutQuoted {quote : UInt8} (hq : isQuote quote = true) :
    (cutQuoted quote s).Sound cs := by
  have hrun : Faithful cs (readQuoted quote s) := faithful_readRun hs hsuffix (wide_quoted hq) true
  unfold cutQuoted
  dsimp only
  split
  · exact ⟨List.forall_mem_singleton.mpr hrun, valid_nil⟩
  · next b t hrest =>
    exact ⟨List.forall_mem_singleton.mpr hrun, valid_behind_run (wide_quoted hq) true hs hrest⟩

/-- An at-keyword is sound. -/
lemma sound_cutAtKeyword : (cutAtKeyword s).Sound cs := by
  have hrun := List.forall_mem_singleton.mpr (faithful_readIdent hs hsuffix)
  unfold cutAtKeyword
  split
  · exact ⟨hrun, valid_readIdent hs⟩
  · exact ⟨hrun, hs⟩

/-- A hash is sound. -/
lemma sound_cutHash : (cutHash s).Sound cs := by
  unfold cutHash
  split
  · exact ⟨List.forall_mem_singleton.mpr (faithful_readRun hs hsuffix wide_isName false),
      valid_readRun wide_isName false hs List.suffix_rfl⟩
  · exact ⟨List.forall_mem_nil _, hs⟩

/-- The mark of importance is sound. -/
lemma sound_cutImportant : (cutImportant s).Sound cs := by
  have hword := valid_skipBlanks (valid_skipComments hs)
  have hwordSuffix := ((skipBlanks_suffix _).trans (skipComments_suffix s)).trans hsuffix
  have hrun := List.forall_mem_singleton.mpr (faithful_readIdent hword hwordSuffix)
  unfold cutImportant
  dsimp only
  split
  · exact ⟨hrun, valid_readIdent hword⟩
  · exact ⟨hrun, hs⟩

/-- A number with what it measures is sound. -/
lemma sound_cutNumeric : (cutNumeric s).Sound cs := by
  have hbehind : Valid (s.drop (number s).length) := by
    apply hs.drop
    rw [← List.prefix_iff_eq_take.mp (number_isPrefix s)]
    exact number_ascii s
  have hbehindSuffix := (List.drop_suffix (number s).length s).trans hsuffix
  have hrun := List.forall_mem_singleton.mpr (faithful_readIdent hbehind hbehindSuffix)
  unfold cutNumeric
  dsimp only
  split
  · next h =>
    obtain ⟨t, ht⟩ := List.head?_eq_some_iff.mp h
    rw [ht] at hbehind ⊢
    exact ⟨List.forall_mem_nil _, hbehind.behind List.suffix_rfl (by decide)⟩
  · split
    · exact ⟨hrun, valid_readIdent hbehind⟩
    · exact ⟨hrun, hbehind⟩

end Sound

/-- The parameter of a url with the blanks around it, and the bytes behind them. -/
inductive UrlParameter : List UInt8 → List UInt8 → Prop where
  | quoted {quote : UInt8} {s t u : List UInt8} :
    skipBlanks s = quote :: t → isQuote quote = true → (readQuoted quote t).rest = quote :: u →
      UrlParameter s (skipBlanks u)
  | plain {b : UInt8} {s t : List UInt8} :
    skipBlanks s = b :: t → isUrl b = true →
      UrlParameter s (skipBlanks (readRun isUrl false (b :: t)).rest)

/-- A url in which a character outside ASCII stands where the parenthesis should be closed, behind
the parameter. -/
def BreaksUrl (s : List UInt8) : Prop :=
  ∃ name t b u, ident? s = some name ∧ name.toLower = "url" ∧ (readIdent s).rest = 0x28 :: t ∧
    UrlParameter t (b :: u) ∧ 0x80 ≤ b.toNat

/-- No quote stands in a url without quotes. -/
lemma not_isUrl_of_isQuote {b : UInt8} (h : isQuote b = true) : isUrl b = false := by
  simp only [isQuote, Bool.or_eq_true, beq_iff_eq] at h
  obtain rfl | rfl := h <;> rfl

/-- Where a parameter of a url stands, there is more than blanks. -/
lemma UrlParameter.ne_nil {s v : List UInt8} (h : UrlParameter s v) : skipBlanks s ≠ [] := by
  cases h with
  | quoted h => exact h ▸ List.cons_ne_nil _ _
  | plain h => exact h ▸ List.cons_ne_nil _ _

/-- The parameter of a url that starts with a quote is closed by the same quote. -/
lemma urlParameter_quoted_iff {quote : UInt8} {s t v : List UInt8}
    (hskip : skipBlanks s = quote :: t) (hq : isQuote quote = true) :
    UrlParameter s v ↔ ∃ u, (readQuoted quote t).rest = quote :: u ∧ v = skipBlanks u := by
  constructor
  · intro h
    cases h with
    | quoted h _ hrest =>
      obtain ⟨rfl, rfl⟩ := List.cons.inj (hskip.symm.trans h)
      exact ⟨_, hrest, rfl⟩
    | plain h hurl =>
      obtain ⟨rfl, -⟩ := List.cons.inj (hskip.symm.trans h)
      rw [not_isUrl_of_isQuote hq] at hurl
      cases hurl
  · rintro ⟨u, hrest, rfl⟩
    exact .quoted hskip hq hrest

/-- The parameter of a url that starts with anything else is a run without quotes. -/
lemma urlParameter_plain_iff {b : UInt8} {s t v : List UInt8} (hskip : skipBlanks s = b :: t)
    (hq : isQuote b = false) :
    UrlParameter s v ↔ isUrl b = true ∧ v = skipBlanks (readRun isUrl false (b :: t)).rest := by
  constructor
  · intro h
    cases h with
    | quoted h hquote =>
      obtain ⟨rfl, -⟩ := List.cons.inj (hskip.symm.trans h)
      rw [hq] at hquote
      cases hquote
    | plain h hurl =>
      obtain ⟨rfl, rfl⟩ := List.cons.inj (hskip.symm.trans h)
      exact ⟨hurl, rfl⟩
  · rintro ⟨hurl, rfl⟩
    exact .plain hskip hurl

section Url

variable {cs : List Char} {s : List UInt8} (hs : Valid s)
include hs

/-- A url leaves whole characters unless it breaks on the first byte of a longer one. -/
lemma valid_closeUrl_iff (parameter : Run) :
    Valid (closeUrl parameter s).rest ↔ ∀ b t, s = b :: t → b.toNat < 0x80 := by
  cases s with
  | nil =>
    refine iff_of_true valid_nil ?_
    rintro b t ⟨⟩
  | cons b t =>
    constructor
    · rintro ht _ _ ⟨⟩
      by_contra hb
      exact not_valid_behind hs (Nat.not_lt.mp hb) ht
    · intro h
      exact hs.behind List.suffix_rfl (h b t rfl)

/-- A url ends on a boundary unless a character outside ASCII breaks it behind its parameter. -/
lemma valid_cutUrl_iff :
    Valid (cutUrl s).rest ↔ ∀ b t, UrlParameter s (b :: t) → b.toNat < 0x80 := by
  have hblanks := valid_skipBlanks hs
  rw [cutUrl]
  cases hskip : skipBlanks s with
  | nil => exact iff_of_true valid_nil fun b t h => absurd hskip h.ne_nil
  | cons b t =>
    rw [hskip] at hblanks
    dsimp only
    split
    · next hq =>
      have ht : Valid t := hblanks.behind List.suffix_rfl (isQuote_ascii hq)
      -- the parameter is a string, and behind it only a parenthesis closes the url
      simp only [urlParameter_quoted_iff hskip hq]
      cases hrest : (readQuoted b t).rest with
      | nil =>
        refine iff_of_true valid_nil ?_
        rintro c u ⟨v, ⟨⟩, -⟩
      | cons c u =>
        have hu : Valid u := valid_behind_run (wide_quoted hq) true ht hrest
        dsimp only
        split
        · next hc =>
          subst hc
          rw [valid_closeUrl_iff (valid_skipBlanks hu)]
          simp [eq_comm]
        · next hc =>
          refine iff_of_true hu ?_
          rintro d v ⟨w, hw, -⟩
          exact absurd (List.cons.inj hw).1 hc
    · next hq =>
      simp only [urlParameter_plain_iff hskip (Bool.eq_false_iff.mpr hq)]
      split
      · next hurl =>
        have hrun := valid_readRun wide_isUrl false hblanks List.suffix_rfl
        -- the run ends in front of a character, which is given up by its first byte
        rw [valid_closeUrl_iff (valid_skipBlanks hrun)]
        simp [hurl, eq_comm]
      · next hurl =>
        -- what can neither open a string nor stand in a url is ASCII
        have hascii : b.toNat < 0x80 := wide_isUrl.ascii (Bool.eq_false_iff.mpr hurl)
        refine iff_of_true (hblanks.behind List.suffix_rfl hascii) ?_
        rintro d v ⟨h, -⟩
        exact absurd h hurl

/-- What a url has read is faithful. -/
lemma runs_cutUrl (hsuffix : s <:+ encode cs) : ∀ run ∈ (cutUrl s).runs, Faithful cs run := by
  have hblanks := valid_skipBlanks hs
  have hblanksSuffix := (skipBlanks_suffix s).trans hsuffix
  -- closed or not, a url has its parameter as its only run
  have hclose : ∀ parameter t, Faithful cs parameter →
      ∀ run ∈ (closeUrl parameter t).runs, Faithful cs run := by
    intro parameter t h
    cases t <;> exact List.forall_mem_singleton.mpr h
  rw [cutUrl]
  cases hskip : skipBlanks s with
  | nil => exact List.forall_mem_nil _
  | cons b t =>
    rw [hskip] at hblanks hblanksSuffix
    dsimp only
    split
    · next hq =>
      have ht : Valid t := hblanks.behind List.suffix_rfl (isQuote_ascii hq)
      have hrun : Faithful cs (readQuoted b t) :=
        faithful_readRun ht ((List.suffix_cons b t).trans hblanksSuffix) (wide_quoted hq) true
      cases (readQuoted b t).rest with
      | nil => exact hclose _ _ hrun
      | cons c u =>
        dsimp only
        split
        · exact hclose _ _ hrun
        · exact List.forall_mem_singleton.mpr hrun
    · split
      · exact hclose _ _ (faithful_readRun hblanks hblanksSuffix wide_isUrl false)
      · exact hclose _ _ (faithful_nil cs _)

end Url

section Ident

variable {cs : List Char} {s : List UInt8} (hs : Valid s)
include hs

/-- Nothing but a url can end inside a character. -/
lemma valid_cutIdentLike_iff : Valid (cutIdentLike s).rest ↔ ¬ BreaksUrl s := by
  have hrest := valid_readIdent hs
  unfold cutIdentLike BreaksUrl
  dsimp only
  cases hident : ident? s with
  | some name =>
    cases hr : (readIdent s).rest with
    | nil => simpa using valid_nil
    | cons b t =>
      rw [hr] at hrest
      dsimp only
      split
      · next hb =>
        subst hb
        have ht : Valid t := hrest.behind List.suffix_rfl (by decide)
        split
        · next hname =>
          rw [valid_cutUrl_iff ht]
          simp [hname]
        · next hname => simpa [hname] using ht
      · next hb => simpa [hb] using hrest
  | none =>
    dsimp only
    split
    · next hdash =>
      obtain ⟨t, rfl⟩ := List.head?_eq_some_iff.mp hdash
      simpa using hs.behind List.suffix_rfl (by decide)
    · next hdash =>
      split
      · simpa using hrest
      · next hstart =>
        -- Every character outside ASCII starts an identifier.
        have hascii : ∀ b ∈ s.take 1, b.toNat < 0x80 := by
          cases s with
          | nil => exact List.forall_mem_nil _
          | cons b t =>
            refine List.forall_mem_singleton.mpr (Nat.not_le.mp fun hb => hstart ?_)
            have hne : b ≠ dash := fun h => hdash (congrArg some h)
            simp [startsIdent, isNameStart_of_wide hb, hne]
        simpa using hs.drop 1 hascii

/-- What a name, a function or a url has read is faithful. -/
lemma runs_cutIdentLike (hsuffix : s <:+ encode cs) :
    ∀ run ∈ (cutIdentLike s).runs, Faithful cs run := by
  have hrun := faithful_readIdent hs hsuffix
  have hone : ∀ run ∈ [readIdent s], Faithful cs run := List.forall_mem_singleton.mpr hrun
  have hrest := valid_readIdent hs
  have hrestSuffix := (readIdent_suffix s).trans hsuffix
  unfold cutIdentLike
  dsimp only
  split
  · split
    · exact hone
    · next b t hr =>
      rw [hr] at hrest hrestSuffix
      split
      · next hb =>
        subst hb
        split
        · have ht : Valid t := hrest.behind List.suffix_rfl (by decide)
          exact List.forall_mem_cons.mpr
            ⟨hrun, runs_cutUrl ht ((List.suffix_cons _ t).trans hrestSuffix)⟩
        · exact hone
      · exact hone
  · split
    · exact hone
    · split <;> exact hone

end Ident

/-- A byte that starts a name is none of those that do not. -/
lemma ne_of_isNameStart {b c : UInt8} (hb : isNameStart b = true) (hc : isNameStart c = false) :
    b ≠ c := by
  rintro rfl
  rw [hb] at hc
  cases hc

/-- A byte that starts a name is no blank. -/
lemma not_isBlank_of_isNameStart {b : UInt8} (h : isNameStart b = true) : isBlank b = false := by
  by_contra hb
  simp only [Bool.not_eq_false, isBlank, isNewline, Bool.or_eq_true, beq_iff_eq] at hb
  obtain (rfl | rfl) | (rfl | rfl) | rfl := hb <;> cases h

/-- A byte that starts a name is no quote. -/
lemma not_isQuote_of_isNameStart {b : UInt8} (h : isNameStart b = true) : isQuote b = false := by
  by_contra hb
  simp only [Bool.not_eq_false, isQuote, Bool.or_eq_true, beq_iff_eq] at hb
  obtain rfl | rfl := hb <;> cases h

/-- A byte that starts a name starts no number. -/
lemma startsNumber_of_isNameStart {b : UInt8} {s : List UInt8} (h : isNameStart b = true) :
    startsNumber (b :: s) = false := by
  have hdot : b ≠ 0x2E := ne_of_isNameStart h rfl
  have hdigit : isDigit b = false := by
    by_contra hb
    simp only [Bool.not_eq_false, isDigit, Bool.and_eq_true, decide_eq_true_eq,
      UInt8.le_iff_toNat_le] at hb
    obtain ⟨hlow, hhigh⟩ := hb
    simp only [isNameStart, isLetter, dash, backslash, Bool.or_eq_true, Bool.and_eq_true,
      decide_eq_true_eq, beq_iff_eq, UInt8.le_iff_toNat_le, UInt8.lt_iff_toNat_lt,
      ← UInt8.toNat_inj] at h
    simp only [UInt8.reduceToNat] at h hlow hhigh
    omega
  simp [startsNumber, number, fraction, hdigit, hdot]

/-- An identifier does not start with a symbol. -/
lemma symbol?_of_startsIdent {b : UInt8} {s : List UInt8} (h : startsIdent (b :: s) = true) :
    symbol? (b :: s) = none := by
  simp only [startsIdent, Bool.and_eq_true] at h
  obtain ⟨hb, hdash⟩ := h
  refine List.find?_eq_none.mpr fun entry hmem hfound => ?_
  have hfound := List.isPrefixOf_iff_prefix.mp hfound
  have hall : ∀ entry ∈ symbols, entry.1 = [0x2D, 0x2D, 0x3E] ∨
      ∃ c ∈ entry.1.head?, isNameStart c = false := by decide
  obtain hcdc | ⟨c, hc, hstart⟩ := hall entry hmem
  · obtain ⟨t, ht⟩ := hcdc ▸ hfound
    cases ht
    cases hdash
  · obtain ⟨t, ht⟩ := hfound
    obtain ⟨u, hu⟩ := List.head?_eq_some_iff.mp hc
    rw [hu, List.cons_append] at ht
    rw [(List.cons.inj ht).1, hb] at hstart
    cases hstart

/-- Where an identifier can start, nothing else does. -/
lemma cut_of_startsIdent {b : UInt8} {s : List UInt8} (h : startsIdent (b :: s) = true) :
    cut (b :: s) = cutIdentLike (b :: s) := by
  have hb : isNameStart b = true := by
    simp only [startsIdent, Bool.and_eq_true] at h
    exact h.1
  rw [cut, not_isBlank_of_isNameStart hb, symbol?_of_startsIdent h, not_isQuote_of_isNameStart hb,
    startsNumber_of_isNameStart hb]
  simp [ne_of_isNameStart hb (c := 0x40) rfl, ne_of_isNameStart hb (c := 0x23) rfl,
    ne_of_isNameStart hb (c := 0x21) rfl, ne_of_isNameStart hb (c := 0x2E) rfl]

/-- An identifier starts where one can start. -/
lemma startsIdent_of_ident? {s : List UInt8} {name : String} (h : ident? s = some name) :
    startsIdent s = true := by
  rw [ident?] at h
  split at h
  · next hstart => exact (Bool.and_eq_true _ _ ▸ hstart).1
  · cases h

/-- A url that breaks starts where an identifier can start. -/
lemma BreaksUrl.startsIdent {s : List UInt8} (h : BreaksUrl s) : startsIdent s = true := by
  obtain ⟨name, t, b, u, hident, -⟩ := h
  exact startsIdent_of_ident? hident

section Cut

variable {cs : List Char} {s : List UInt8} (hs : Valid s) (hsuffix : s <:+ encode cs)
include hs hsuffix

/-- Every token is sound, unless it is cut as a name. -/
lemma sound_cut : (cut s).Sound cs ∨ cut s = cutIdentLike s := by
  cases s with
  | nil => exact .inl ⟨List.forall_mem_nil _, valid_nil⟩
  | cons b t =>
    have htail : b.toNat < 0x80 → Valid t := hs.behind List.suffix_rfl
    have htailSuffix : t <:+ encode cs := (List.suffix_cons b t).trans hsuffix
    apply cut_elim (P := fun lexeme => lexeme.Sound cs ∨ lexeme = cutIdentLike (b :: t))
    case blanks => 
      intro hb
      exact .inl ⟨List.forall_mem_nil _, valid_skipBlanks (htail (isBlank_ascii hb))⟩
    case symbol => exact fun _ _ h => .inl (sound_symbol hs h)
    case quoted => exact fun hq => .inl (sound_cutQuoted (htail (isQuote_ascii hq)) htailSuffix hq)
    case atKeyword =>
      rintro rfl
      exact .inl (sound_cutAtKeyword (htail (by decide)) htailSuffix)
    case hash =>
      rintro rfl
      exact .inl (sound_cutHash (htail (by decide)) htailSuffix)
    case important =>
      rintro rfl
      exact .inl (sound_cutImportant (htail (by decide)) htailSuffix)
    case numeric => exact fun _ => .inl (sound_cutNumeric hs hsuffix)
    case dot =>
      rintro rfl
      exact .inl ⟨List.forall_mem_nil _, htail (by decide)⟩
    case identLike => exact .inr rfl

/-- Whatever a token has read is faithful. -/
lemma runs_cut : ∀ run ∈ (cut s).runs, Faithful cs run := by
  obtain h | h := sound_cut hs hsuffix
  · exact h.runs
  · rw [h]
    exact runs_cutIdentLike hs hsuffix

/-- A token leaves whole characters unless it is a url that breaks. -/
lemma valid_cut_iff : Valid (cut s).rest ↔ ¬ BreaksUrl s := by
  -- A url starts like an identifier, and where an identifier can start nothing else is cut.
  by_cases hstart : startsIdent s = true
  · cases s with
    | nil => cases hstart
    | cons b t =>
      rw [cut_of_startsIdent hstart]
      exact valid_cutIdentLike_iff hs
  · have hbreaks : ¬ BreaksUrl s := fun h => hstart h.startsIdent
    refine iff_of_true ?_ hbreaks
    obtain h | h := sound_cut hs hsuffix
    · exact h.valid
    · rw [h]
      exact (valid_cutIdentLike_iff hs).mpr hbreaks

end Cut

/-- The texts of a lexeme are ASCII or those of its runs, and nothing is left where it met the end
of the input. -/
structure Lexeme.Coherent (lexeme : Lexeme) : Prop where
  ended : lexeme.ended = false ∨ lexeme.rest = []
  texts : ∀ v ∈ lexeme.kind.texts,
    (∀ c ∈ v.toList, c.toNat < 0x80) ∨ ∃ run ∈ lexeme.runs, run.text = v

/-- The text of an identifier is what has been read for it. -/
lemma ident?_eq_text {s : List UInt8} {name : String} (h : ident? s = some name) :
    (readIdent s).text = name := by
  unfold ident? at h
  split at h
  · exact Option.some.inj h
  · cases h

/-- A unit that is not kept as written is one of the units that are known. -/
lemma unit?_ofUnit {unit v : String} (h : (Measure.ofUnit unit).unit? = some v) :
    (∀ c ∈ v.toList, c.toNat < 0x80) ∨ v = unit := by
  have hascii : ∀ us : List String, us.all (·.toList.all (·.toNat < 0x80)) = true →
      ∀ u ∈ us, ∀ c ∈ u.toList, c.toNat < 0x80 := by
    intro us hus u hu c hc
    exact of_decide_eq_true (List.all_eq_true.mp (List.all_eq_true.mp hus u hu) c hc)
  unfold Measure.ofUnit at h
  dsimp only at h
  split_ifs at h with _ _ hlength hangle htime hfrequency
  · cases h
  · cases h
  · exact .inl (hascii _ (by decide) v (Option.some.inj h ▸ hlength))
  · exact .inl (hascii _ (by decide) v (Option.some.inj h ▸ hangle))
  · exact .inl (hascii _ (by decide) v (Option.some.inj h ▸ htime))
  · exact .inl (hascii _ (by decide) v (Option.some.inj h ▸ hfrequency))
  · exact .inr (Option.some.inj h).symm

/-- A lexeme that carries no text and did not meet the end of the input. -/
lemma Lexeme.Coherent.of_bare {lexeme : Lexeme} (hended : lexeme.ended = false)
    (htexts : lexeme.kind.texts = []) : lexeme.Coherent :=
  ⟨.inl hended, htexts ▸ List.forall_mem_nil _⟩

/-- A lexeme that carries the text of one of its runs. -/
lemma Lexeme.Coherent.of_run {lexeme : Lexeme} {run : Run}
    (hended : lexeme.ended = false ∨ lexeme.rest = []) (hrun : run ∈ lexeme.runs)
    (htexts : lexeme.kind.texts = [run.text]) : lexeme.Coherent :=
  ⟨hended, htexts ▸ List.forall_mem_singleton.mpr (.inr ⟨run, hrun, rfl⟩)⟩

/-- A string is coherent. -/
lemma coherent_cutQuoted (quote : UInt8) (s : List UInt8) : (cutQuoted quote s).Coherent := by
  unfold cutQuoted
  dsimp only
  split
  · exact .of_run (.inr rfl) List.mem_cons_self rfl
  · split
    · exact .of_run (.inl rfl) List.mem_cons_self rfl
    · exact .of_bare rfl rfl

/-- At-keywords carry no texts. -/
lemma texts_atKeywordKind (name : String) : (atKeywordKind name).texts = [] := by
  have hall : ∀ kind ∈ atKeywords, kind.texts = [] := by decide
  exact hall _ (atKeywordKind_mem name)

/-- An at-keyword is coherent. -/
lemma coherent_cutAtKeyword (s : List UInt8) : (cutAtKeyword s).Coherent := by
  unfold cutAtKeyword
  split
  · exact .of_bare rfl (texts_atKeywordKind _)
  · exact .of_bare rfl rfl

/-- A hash is coherent. -/
lemma coherent_cutHash (s : List UInt8) : (cutHash s).Coherent := by
  unfold cutHash
  split
  · exact .of_run (.inl rfl) List.mem_cons_self rfl
  · exact .of_bare rfl rfl

/-- The mark of importance is coherent. -/
lemma coherent_cutImportant (s : List UInt8) : (cutImportant s).Coherent := by
  unfold cutImportant
  dsimp only
  split <;> exact .of_bare rfl rfl

/-- A number with what it measures is coherent. -/
lemma coherent_cutNumeric (s : List UInt8) : (cutNumeric s).Coherent := by
  have hvalue := decode_ascii (number_ascii s)
  unfold cutNumeric
  dsimp only
  split
  · exact ⟨.inl rfl, List.forall_mem_singleton.mpr (.inl hvalue)⟩
  · split
    · next unit hunit =>
      refine ⟨.inl rfl, List.forall_mem_cons.mpr ⟨.inl hvalue, ?_⟩⟩
      intro v hv
      obtain hascii | rfl := unit?_ofUnit (Option.mem_toList.mp hv)
      · exact .inl hascii
      · exact .inr ⟨_, List.mem_cons_self, ident?_eq_text hunit⟩
    · exact ⟨.inl rfl, List.forall_mem_singleton.mpr (.inl hvalue)⟩

/-- A url whose parameter is read is coherent. -/
lemma coherent_closeUrl (parameter : Run) (s : List UInt8) : (closeUrl parameter s).Coherent := by
  cases s with
  | nil => exact .of_run (.inr rfl) List.mem_cons_self rfl
  | cons b t =>
    rw [closeUrl]
    split
    · exact .of_run (.inl rfl) List.mem_cons_self rfl
    · exact .of_bare rfl rfl

/-- A url is coherent. -/
lemma coherent_cutUrl (s : List UInt8) : (cutUrl s).Coherent := by
  unfold cutUrl
  split
  · exact ⟨.inr rfl, List.forall_mem_nil _⟩
  · split
    · dsimp only
      split
      · exact coherent_closeUrl _ _
      · split
        · exact coherent_closeUrl _ _
        · exact .of_bare rfl rfl
    · split <;> exact coherent_closeUrl _ _

/-- A name, a function or a url is coherent. -/
lemma coherent_cutIdentLike (s : List UInt8) : (cutIdentLike s).Coherent := by
  unfold cutIdentLike
  dsimp only
  split
  · next name hname =>
    obtain rfl := ident?_eq_text hname
    split
    · exact .of_run (.inl rfl) List.mem_cons_self rfl
    · split
      · split
        · have h := coherent_cutUrl
          refine ⟨(h _).ended, fun v hv => ((h _).texts v hv).imp_right ?_⟩
          rintro ⟨run, hrun, htext⟩
          exact ⟨run, List.mem_cons_of_mem _ hrun, htext⟩
        · exact .of_run (.inl rfl) List.mem_cons_self rfl
      · exact .of_run (.inl rfl) List.mem_cons_self rfl
  · split
    · exact .of_bare rfl rfl
    · split <;> exact .of_bare rfl rfl

/-- Every token is coherent. -/
lemma coherent_cut (s : List UInt8) : (cut s).Coherent := by
  cases s with
  | nil => exact ⟨.inr rfl, List.forall_mem_nil _⟩
  | cons b s =>
    apply cut_elim (P := Lexeme.Coherent)
    case blanks =>
      intro _
      have hascii := decode_ascii fun c (hc : c ∈ (b :: s).takeWhile isBlank) =>
        isBlank_ascii (List.mem_takeWhile_imp hc)
      exact ⟨.inl rfl, List.forall_mem_singleton.mpr (.inl hascii)⟩
    case symbol =>
      intro spelling kind h
      have hall : ∀ entry ∈ symbols, entry.2.texts = [] := by decide
      exact .of_bare rfl (hall _ (List.mem_of_find?_eq_some h))
    case quoted => exact fun _ => coherent_cutQuoted b s
    case atKeyword => exact fun _ => coherent_cutAtKeyword s
    case hash => exact fun _ => coherent_cutHash s
    case important => exact fun _ => coherent_cutImportant s
    case numeric => exact fun _ => coherent_cutNumeric (b :: s)
    case dot => exact fun _ => .of_bare rfl rfl
    case identLike => exact coherent_cutIdentLike (b :: s)

/-- A token starts at once where neither a blank, a comment nor anything that absorbs blanks does.
-/
lemma tokenStart_eq_self {b : UInt8} {s : List UInt8} (hb : isBlank b = false) (hslash : b ≠ 0x2F)
    (habsorbs : absorbsBlanks (b :: s) = false) : tokenStart (b :: s) = b :: s := by
  have hblanks : skipBlanks (b :: s) = b :: s := skipBlanks_eq_self hb
  have hcomment : opensComment (skipBlanks (b :: s)) = false := by
    rw [hblanks]
    simp [opensComment, List.isPrefixOf_cons_cons, hslash.symm]
  unfold tokenStart
  dsimp only
  rw [skipComments_of_not_opens hcomment, hblanks, if_neg (Bool.eq_false_iff.mp habsorbs)]

/-- No blank and no comment stands in front of a name. -/
lemma tokenStart_of_isNameStart {b : UInt8} {s : List UInt8} (h : isNameStart b = true) :
    tokenStart (b :: s) = b :: s := by
  refine tokenStart_eq_self (not_isBlank_of_isNameStart h) (ne_of_isNameStart h rfl) ?_
  simp [absorbsBlanks, ne_of_isNameStart h (c := 0x7B) rfl, ne_of_isNameStart h (c := 0x2B) rfl,
    ne_of_isNameStart h (c := 0x3E) rfl, ne_of_isNameStart h (c := 0x2C) rfl]

/-- A continuation byte can start an identifier. -/
lemma startsIdent_of_tail {b : UInt8} (s : List UInt8) (h : tail.contains b = true) :
    startsIdent (b :: s) = true := by
  have hne : b ≠ dash := by
    rintro rfl
    cases h
  simp [startsIdent, isNameStart_of_wide (contains_iff.mp h).1, hne]

/-- No name that starts with a replacement character is that of a url. -/
lemma toLower_ne_url {name : String} (h : name.toList.head? = some replacement) :
    name.toLower ≠ "url" := by
  intro hurl
  have hhead : (name.map Char.toLower).toList.head? = some 'u' := congrArg (·.toList.head?) hurl
  rw [String.toList_map, List.head?_map, h] at hhead
  cases hhead

section Inside

variable {whole s : List UInt8} {b : UInt8} (hwhole : Valid whole) (hs : b :: s <:+ whole)
  (hb : tail.contains b = true)
include hwhole hs hb

/-- A run that starts inside a character collects the byte it starts with. -/
lemma readName_inside : ∃ t, (readName (b :: s)).bytes = b :: t := by
  obtain ⟨cs, rfl⟩ := hwhole
  obtain ⟨tails, ds, hsplit, htails, -⟩ := suffix_encode hs
  obtain ⟨es, hbytes, -⟩ := readRun_bytes false wide_isName hsplit htails
  cases tails with
  | nil => exact absurd ⟨ds, hsplit.symm⟩ (not_valid_of_tail hb)
  | cons c tails =>
    obtain ⟨rfl, -⟩ := List.cons.inj hsplit
    exact ⟨tails ++ encode es, hbytes⟩

/-- Inside a character a name starts, and its text starts with a replacement character. -/
lemma ident?_inside : ∃ name, ident? (b :: s) = some name ∧
    ¬ Valid (readIdent (b :: s)).bytes ∧ name.toList.head? = some replacement := by
  have hstart : startsIdent (b :: s) = true := startsIdent_of_tail s hb
  have hread : readIdent (b :: s) = readName (b :: s) := if_pos hstart
  obtain ⟨t, hbytes⟩ := readName_inside hwhole hs hb
  have hdash : (b :: t) ≠ [dash] := by
    intro h
    rw [(List.cons.inj h).1] at hb
    cases hb
  refine ⟨(readIdent (b :: s)).text, ?_, ?_, ?_⟩
  · rw [ident?, hstart, hread, hbytes, if_pos (by simpa using hdash)]
  · rw [hread, hbytes]
    exact not_valid_of_tail hb
  · rw [Run.text, hread, hbytes]
    exact decode_tail t hb

/-- A name that starts inside a character is no `url`. -/
lemma not_breaksUrl_inside : ¬ BreaksUrl (b :: s) := by
  rintro ⟨name, t, c, u, hident, hname, -⟩
  obtain ⟨_, hinside, -, hhead⟩ := ident?_inside hwhole hs hb
  obtain rfl := Option.some.inj (hident.symm.trans hinside)
  exact toLower_ne_url hhead hname

/-- The token inside a character ends on a boundary, and its text starts with a replacement
character. -/
lemma cut_inside : Valid (cut (b :: s)).rest ∧ (∃ run ∈ (cut (b :: s)).runs, ¬ Valid run.bytes) ∧
    ∃ v ∈ (cut (b :: s)).kind.texts, v.toList.head? = some replacement := by
  have hstart := startsIdent_of_tail s hb
  obtain ⟨name, hident, hinvalid, hhead⟩ := ident?_inside hwhole hs hb
  have hrest : Valid (readIdent (b :: s)).rest := by
    rw [readIdent, if_pos hstart]
    exact valid_readRun wide_isName false hwhole hs
  have hruns : ∃ run ∈ [readIdent (b :: s)], ¬ Valid run.bytes := ⟨_, List.mem_cons_self, hinvalid⟩
  have htexts : ∃ v ∈ [name], v.toList.head? = some replacement := ⟨_, List.mem_cons_self, hhead⟩
  rw [cut_of_startsIdent hstart]
  unfold cutIdentLike
  rw [hident]
  dsimp only
  split
  · exact ⟨valid_nil, hruns, htexts⟩
  · next c t hr =>
    rw [hr] at hrest
    split
    · next hc =>
      subst hc
      rw [if_neg (toLower_ne_url hhead)]
      exact ⟨hrest.behind List.suffix_rfl (by decide), hruns, htexts⟩
    · exact ⟨hrest, hruns, htexts⟩

end Inside

end Lexer

namespace Scanner

open Lexer

/-- A scanner has left what its token leaves. -/
lemma rest_next (sc : Scanner) : sc.next.source.rest = (scan sc.rest).rest := by
  have hsuffix : (scan sc.rest).rest <:+ sc.text :=
    (scan_suffix sc.rest).trans (List.drop_suffix sc.read sc.text)
  change sc.text.drop (if (scan sc.rest).ended then _ else _) = _
  split
  · next h =>
    have hrest : (scan sc.rest).rest = [] :=
      (coherent_cut _).ended.resolve_left fun hno => Bool.false_ne_true (hno.symm.trans h)
    rw [hrest]
    exact List.drop_eq_nil_of_le (Nat.le_succ _)
  · exact (List.suffix_iff_eq_drop.mp hsuffix).symm

/-- What a scanner has left is the end of its text. -/
lemma rest_suffix {sc : Scanner} {text : String} (h : sc.text = Utf8.bytes text) :
    sc.rest <:+ encode text.toList := by
  have hsuffix : sc.rest <:+ sc.text := List.drop_suffix sc.read sc.text
  rwa [h] at hsuffix

/-- The scanner behind the given number of tokens. -/
def after (sc : Scanner) : Nat → Scanner
  | 0 => sc
  | n + 1 => (sc.after n).next.source

/-- Scanning does not change the text. -/
lemma text_after (sc : Scanner) (n : Nat) : (sc.after n).text = sc.text := by
  induction n with
  | zero => rfl
  | succ n ih => exact ih

/-- Scanning does not change the lines. -/
lemma lines_after (sc : Scanner) (n : Nat) : (sc.after n).lines = sc.lines := by
  induction n with
  | zero => rfl
  | succ n ih => exact ih

/-- What is left of a text is whole characters or starts with a continuation byte. -/
lemma rest_cases {sc : Scanner} {text : String} (h : sc.text = Utf8.bytes text) :
    Valid sc.rest ∨ ∃ b s, sc.rest = b :: s ∧ tail.contains b = true := by
  obtain ⟨tails, cs, hrest, htails, -⟩ := suffix_encode (rest_suffix h)
  cases tails with
  | nil => exact .inl ⟨cs, hrest.symm⟩
  | cons b tails => exact .inr ⟨b, _, hrest, htails b List.mem_cons_self⟩

end Scanner

open Lexer Scanner

/-- A scanner stands between two characters of a text and takes them as they are: the runs that it
reads next decode without a replacement, and every character outside ASCII in its next token stands
in the text or is named by an escape there. -/
structure Untouched (text : String) (sc : Scanner) : Prop where
  boundary : ∃ before behind, text.toList = before ++ behind ∧ sc.rest = encode behind
  runs : ∀ run ∈ (scan sc.rest).runs, Valid run.bytes ∧ Utf8.bytes run.text = run.bytes
  texts : ∀ v ∈ sc.next.token.kind.texts, ∀ c ∈ v.toList, 0x80 ≤ c.toNat → Spells text.toList c

section Scanner

variable {text : String} {sc : Scanner} (hsc : sc.text = Utf8.bytes text)
include hsc

/-- Characters are untouched by a call that starts with a whole one. -/
lemma untouched_iff_valid : Untouched text sc ↔ Valid sc.rest := by
  have hsuffix := rest_suffix hsc
  constructor
  · rintro ⟨⟨_, behind, -, hrest⟩, -, -⟩
    exact ⟨behind, hrest.symm⟩
  · intro hvalid
    obtain ⟨behind, hrest, ⟨before, htext⟩⟩ := hvalid.exists_suffix hsuffix
    have hruns := runs_cut (valid_tokenStart hvalid) ((tokenStart_suffix sc.rest).trans hsuffix)
    refine ⟨⟨before, behind, htext.symm, hrest⟩, ?_, ?_⟩
    · intro run hrun
      obtain ⟨ds, hds, -⟩ := hruns run hrun
      have hrunValid : Valid run.bytes := ⟨ds, hds.symm⟩
      exact ⟨hrunValid, hrunValid.bytes_decode⟩
    · intro v hv c hc hwide
      obtain hascii | ⟨run, hrun, rfl⟩ := (coherent_cut _).texts v hv
      · exact absurd (hascii c hc) (Nat.not_lt.mpr hwide)
      · obtain ⟨ds, hds, hspells⟩ := hruns run hrun
        rw [Run.text, hds, decode_encode, String.toList_ofList] at hc
        exact hspells c hc

/-- A token ends on a boundary unless it is a url that a character outside ASCII breaks. -/
lemma valid_next_iff : Valid sc.next.source.rest ↔ ¬ BreaksUrl (tokenStart sc.rest) := by
  have hsuffix := rest_suffix hsc
  rw [rest_next, scan]
  -- Also inside a character: the token there is a name, which runs up to a boundary.
  obtain hvalid | ⟨b, s, hrest, hb⟩ := rest_cases hsc
  · exact valid_cut_iff (valid_tokenStart hvalid) ((tokenStart_suffix sc.rest).trans hsuffix)
  · have hwhole : Valid (encode text.toList) := ⟨_, rfl⟩
    rw [hrest] at hsuffix ⊢
    rw [tokenStart_of_isNameStart (isNameStart_of_wide (contains_iff.mp hb).1)]
    exact iff_of_true (cut_inside hwhole hsuffix hb).1 (not_breaksUrl_inside hwhole hsuffix hb)

/-- The next token of a scanner that stands inside a character starts with a replacement. -/
lemma replaced_of_not_valid (h : ¬ Valid sc.rest) :
    ∃ v ∈ sc.next.token.kind.texts, v.toList.head? = some replacement := by
  have hsuffix := rest_suffix hsc
  obtain ⟨b, s, hrest, hb⟩ := (rest_cases hsc).resolve_left h
  change ∃ v ∈ (cut (tokenStart sc.rest)).kind.texts, _
  rw [hrest] at hsuffix ⊢
  rw [tokenStart_of_isNameStart (isNameStart_of_wide (contains_iff.mp hb).1)]
  exact (cut_inside ⟨_, rfl⟩ hsuffix hb).2.2

end Scanner

/-- A text is read without touching its characters if and only if no url in it is broken by a
character outside ASCII. -/
theorem characters_untouched_iff (text : String) (start : Location) :
    ((∀ n, Untouched text ((Scanner.ofText text start).after n)) ↔
      ∀ n, ¬ BreaksUrl (tokenStart ((Scanner.ofText text start).after n).rest)) ∧
    ∀ n, (Untouched text ((Scanner.ofText text start).after (n + 1)) ↔
        ¬ BreaksUrl (tokenStart ((Scanner.ofText text start).after n).rest)) ∧
      (¬ Untouched text ((Scanner.ofText text start).after n) →
        ∃ v ∈ ((Scanner.ofText text start).after n).next.token.kind.texts,
          v.toList.head? = some replacement) := by
  have htext : ∀ n, ((Scanner.ofText text start).after n).text = Utf8.bytes text :=
    text_after (Scanner.ofText text start)
  have hstart : Untouched text ((Scanner.ofText text start).after 0) :=
    (untouched_iff_valid (htext 0)).mpr (valid_bytes text)
  have hstep : ∀ n, Untouched text ((Scanner.ofText text start).after (n + 1)) ↔
      ¬ BreaksUrl (tokenStart ((Scanner.ofText text start).after n).rest) :=
    fun n => (untouched_iff_valid (htext (n + 1))).trans (valid_next_iff (htext n))
  refine ⟨⟨fun h n => (hstep n).mp (h (n + 1)), ?_⟩, fun n => ⟨hstep n, ?_⟩⟩
  · intro h n
    cases n with
    | zero => exact hstart
    | succ n => exact (hstep n).mpr (h n)
  · intro h
    exact replaced_of_not_valid (htext n) (mt (untouched_iff_valid (htext n)).mpr h)

/-- In `url(a é)` the scanner stands inside the `é` behind the first token, and the second token
is a replacement character. -/
theorem character_torn_by_url :
    ¬ Untouched "url(a é)" ((Scanner.ofText "url(a é)" .origin).after 1) ∧
    ((Scanner.ofText "url(a é)" .origin).after 1).next.token.kind =
      .ident (String.singleton replacement) := by
  have hrest : ((Scanner.ofText "url(a é)" .origin).after 1).rest = [0xA9, 0x29] := by
    decide +kernel
  refine ⟨?_, by decide +kernel⟩
  rintro ⟨⟨before, behind, -, hbehind⟩, -, -⟩
  exact not_valid_of_tail rfl ⟨behind, (hrest.symm.trans hbehind).symm⟩

end CssSyntax
