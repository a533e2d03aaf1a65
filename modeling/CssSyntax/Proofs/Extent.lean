import CssSyntax.Proofs.Literals

/-!
# Extents of tokens

A token stands at its place in the text and extends up to the last byte that is read with it. So the
bytes of a token and the bytes behind it are all bytes from its place on (`extent_append`), and what
a token is depends on these alone.

A scan that leads to no token is given up, and then only the byte it started with is taken. Main
statement: the one scan that is not given up in this way is that of an escaped dash, which takes its
whole name (`failed_scan_takes_one_iff`).
-/

namespace CssSyntax

open Byte Utf8 Lexer

namespace Lexer

/-- What a token leaves is the end of what it is cut from. -/
lemma cut_rest_suffix (s : List UInt8) : (cut s).rest <:+ s := by
  cases s with
  | nil => exact List.suffix_rfl
  | cons b s => exact (cut_suffix b s).trans (List.suffix_cons b s)

end Lexer

namespace Scanner

/-- The offset of the next token in the text. -/
def position (sc : Scanner) : Nat :=
  sc.next.token.location.offset - sc.lines.start.offset

/-- The bytes of the text from the next token on. -/
def ahead (sc : Scanner) : List UInt8 :=
  sc.text.drop sc.position

/-- The bytes of the next token, up to the last one that is read with it. -/
def extent (sc : Scanner) : List UInt8 :=
  (sc.text.take sc.next.source.read).drop sc.position

variable (sc : Scanner)

/-- The next token starts as far from the end of the text as the bytes from its start on reach. -/
lemma position_eq : sc.position = sc.text.length - (tokenStart sc.rest).length :=
  Nat.add_sub_cancel_left _ _

/-- The bytes from the next token on are those from where it starts. -/
lemma ahead_eq : sc.ahead = tokenStart sc.rest := by
  have hsuffix : tokenStart sc.rest <:+ sc.text :=
    (tokenStart_suffix sc.rest).trans (List.drop_suffix sc.read sc.text)
  rw [ahead, position_eq]
  exact (List.suffix_iff_eq_drop.mp hsuffix).symm

/-- A token is cut from the bytes at its place. -/
lemma kind_next : sc.next.token.kind = (cut sc.ahead).kind := by
  rw [ahead_eq]
  rfl

/-- Behind the next token stands what it leaves of the bytes at its place. -/
lemma rest_next_ahead : sc.next.source.rest = (cut sc.ahead).rest := by
  rw [rest_next, scan, ahead_eq]

/-- The scanner stands where the bytes begin that the token leaves, or behind the end of the text.
-/
lemma read_next : sc.next.source.read =
    if (cut sc.ahead).ended then sc.text.length + 1
    else sc.text.length - (cut sc.ahead).rest.length := by
  rw [ahead_eq]
  rfl

/-- The bytes from the next token on reach from its place to the end of the text. -/
lemma length_ahead : sc.position + sc.ahead.length = sc.text.length := by
  have hposition : sc.position ≤ sc.text.length := sc.position_eq.trans_le (Nat.sub_le _ _)
  rw [ahead, List.length_drop]
  omega

/-- The bytes of a token and those behind it are all bytes from the token on. -/
lemma extent_append : sc.extent ++ sc.next.source.rest = sc.ahead := by
  have hread : sc.position ≤ sc.next.source.read := by
    have hlength := sc.length_ahead
    have hle := (cut_rest_suffix sc.ahead).length_le
    rw [read_next]
    split <;> omega
  have hrest : sc.next.source.rest =
      (sc.text.drop sc.position).drop (sc.next.source.read - sc.position) := by
    rw [List.drop_drop, Nat.add_sub_cancel' hread]
    rfl
  rw [extent, hrest, List.drop_take, List.take_append_drop, ahead]

/-- The next token is a single byte, on which the scanner then stands. -/
structure TakesOne : Prop where
  location : sc.next.source.location = sc.next.token.location
  read : sc.next.source.read = sc.position + 1
  rest : sc.next.source.rest = sc.ahead.tail

/-- A token that does not meet the end of the input is a single byte if it leaves all others. -/
lemma takesOne_iff (hne : sc.ahead ≠ []) (hended : (cut sc.ahead).ended = false) :
    sc.TakesOne ↔ (cut sc.ahead).rest = sc.ahead.tail := by
  constructor
  · intro h
    rw [← rest_next_ahead, h.rest]
  · intro h
    have hpos := List.length_pos_iff.mpr hne
    have hlength := sc.length_ahead
    have hread : sc.next.source.read = sc.position + 1 := by
      rw [read_next, hended, h, List.length_tail]
      simp only [Bool.false_eq_true, if_false]
      omega
    refine ⟨?_, hread, sc.rest_next_ahead.trans h⟩
    have hplace : sc.next.token.location = sc.lines.locate sc.position := by
      rw [position_eq]
      rfl
    rw [hplace, location, hread]
    rfl

end Scanner

/-- Whether a token stands for a byte that starts nothing else. -/
def Kind.isLone : Kind → Bool
  | minus | dot | invalid => true
  | _ => false

namespace Lexer

/-- The name of a url and its opening parenthesis. -/
def OpensUrl (s : List UInt8) : Prop :=
  ∃ name t, ident? s = some name ∧ name.toLower = "url" ∧ (readIdent s).rest = 0x28 :: t

/-- A name that starts with an escape and of which only a dash remains. -/
def EscapedDash (s : List UInt8) : Prop :=
  s.head? = some backslash ∧ (readName s).text = "-"

/-- A byte that is no backslash is the first that a run contributes. -/
lemma head?_readName {b : UInt8} (s : List UInt8) (hb : isName b = true) (hraw : b ≠ backslash) :
    (readName (b :: s)).bytes.head? = some b := by
  have hread := gathers_piece false s hb
  rw [readPiece, if_neg hraw] at hread
  rw [readName, hread.bytes]
  rfl

/-- Where an identifier can start there is one, unless only a dash remains of it. -/
lemma escapedDash_iff {s : List UInt8} :
    EscapedDash s ↔ startsIdent s = true ∧ ident? s = none ∧ s.head? ≠ some dash := by
  constructor
  · rintro ⟨hhead, htext⟩
    obtain ⟨t, rfl⟩ := List.head?_eq_some_iff.mp hhead
    have hstart : startsIdent (backslash :: t) = true := rfl
    have hbytes : (readName (backslash :: t)).bytes = [dash] := decode_eq_dash htext
    refine ⟨hstart, ?_, by rintro ⟨⟩⟩
    rw [ident?, readIdent, if_pos hstart, hbytes, bne_self_eq_false, Bool.and_false]
    rfl
  · rintro ⟨hstart, hident, hdash⟩
    -- a name is read to its end, and only a lone dash is given up
    have hbytes : (readName s).bytes = [dash] := by
      rw [ident?, readIdent, if_pos hstart, hstart, Bool.true_and] at hident
      by_contra hne
      rw [if_pos (bne_iff_ne.mpr hne)] at hident
      cases hident
    cases s with
    | nil => cases hstart
    | cons b t =>
      have hname : isName b = true := by
        simp only [startsIdent, Bool.and_eq_true] at hstart
        simp [isName, hstart.1]
      refine ⟨?_, ?_⟩
      · by_contra hb
        have hraw : b ≠ backslash := fun h => hb (congrArg some h)
        -- unless it is escaped, the first byte would be the dash itself
        have hfirst := head?_readName t hname hraw
        rw [hbytes] at hfirst
        exact hdash hfirst.symm
      · rw [Run.text, hbytes]
        decide +kernel

/-- An escape takes a byte behind its backslash, if there is one. -/
lemma length_readEscape_lt (joinsLines : Bool) (b : UInt8) (s : List UInt8) :
    (readEscape joinsLines (b :: s)).2.length < (b :: s).length := by
  rw [readEscape]
  split
  · next hhex =>
    have hdigits : 0 < (escapeDigits (b :: s)).length := by simp [escapeDigits, hhex]
    have hle := (skipTerminator_suffix ((b :: s).drop (escapeDigits (b :: s)).length)).length_le
    rw [List.length_drop, List.length_cons] at hle
    dsimp only
    rw [List.length_cons]
    split <;> (dsimp only; omega)
  · have hle : (s.drop 1).length ≤ s.length := (List.drop_suffix 1 s).length_le
    split
    · dsimp only
      split
      · exact Nat.lt_succ_of_le hle
      · exact Nat.lt_succ_self _
    · exact Nat.lt_succ_self _

/-- An escape and what it stands for are two bytes at least. -/
lemma EscapedDash.two_le_length {s : List UInt8} (h : EscapedDash s) :
    (readName s).rest.length + 2 ≤ s.length := by
  obtain ⟨hhead, htext⟩ := h
  obtain ⟨t, rfl⟩ := List.head?_eq_some_iff.mp hhead
  have hread := gathers_escape readsPlain_name false t
  cases t with
  | nil =>
    rw [Run.text, show (readName [backslash]).bytes = [] by decide +kernel] at htext
    exact absurd htext (by decide +kernel)
  | cons b t =>
    have hlt := length_readEscape_lt false b t
    have hle := (readRun_suffix isName false (readEscape false (b :: t)).2).length_le
    rw [readName, hread.rest, List.length_cons]
    omega

section Lone

variable {s : List UInt8}

/-- What a scan leaves that starts like an identifier and finds none. -/
lemma cutIdentLike_of_none (h : ident? s = none) : (cutIdentLike s).kind.isLone = true ∧
    (cutIdentLike s).ended = false ∧ (cutIdentLike s).rest =
      if startsIdent s = true ∧ s.head? ≠ some dash then (readName s).rest else s.tail := by
  rw [cutIdentLike, h]
  dsimp only
  split
  · next hdash => simp [hdash, Kind.isLone]
  · next hdash =>
    split
    · next hstart => simp [hdash, hstart, readIdent, Kind.isLone]
    · next hstart => simp [hstart, Kind.isLone]

/-- A name and a function are not lone. -/
lemma isLone_cutIdentLike {name : String} (h : ident? s = some name) (hurl : ¬ OpensUrl s) :
    (cutIdentLike s).kind.isLone = false := by
  by_cases hparen : (readIdent s).rest.head? = some 0x28
  · obtain ⟨t, ht⟩ := List.head?_eq_some_iff.mp hparen
    have hname : name.toLower ≠ "url" := fun hname => hurl ⟨name, t, h, hname, ht⟩
    rw [cutIdentLike_function h ht hname]
    rfl
  · rw [cutIdentLike_ident h hparen]
    rfl

/-- A scan that is given up leaves all bytes but the one it started with. -/
lemma cut_of_isLone {b : UInt8} (hstart : startsIdent (b :: s) = false) (hquote : isQuote b = false)
    (hlone : (cut (b :: s)).kind.isLone = true) :
    (cut (b :: s)).ended = false ∧ (cut (b :: s)).rest = s := by
  revert hlone
  apply cut_elim (P := fun lexeme => lexeme.kind.isLone = true →
    lexeme.ended = false ∧ lexeme.rest = s)
  case blanks => rintro - ⟨⟩
  case symbol =>
    intro spelling kind hsymbol hlone
    have hall : ∀ entry ∈ symbols, entry.2.isLone = false := by decide
    have hnot : kind.isLone = false := hall _ (symbol?_spec hsymbol).1
    cases hnot.symm.trans hlone
  case quoted => exact fun h => absurd h (Bool.eq_false_iff.mp hquote)
  case atKeyword =>
    intro _ hlone
    unfold cutAtKeyword at hlone ⊢
    split
    · next name hident =>
      have hall : ∀ kind ∈ atKeywords, kind.isLone = false := by decide
      rw [hident] at hlone
      cases (hall _ (atKeywordKind_mem name)).symm.trans hlone
    · exact ⟨rfl, rfl⟩
  case hash =>
    intro _ hlone
    unfold cutHash at hlone ⊢
    split
    · next hname =>
      rw [if_pos hname] at hlone
      cases hlone
    · exact ⟨rfl, rfl⟩
  case important =>
    intro _ hlone
    unfold cutImportant at hlone ⊢
    dsimp only at hlone ⊢
    split
    · next hword =>
      rw [if_pos hword] at hlone
      cases hlone
    · exact ⟨rfl, rfl⟩
  case numeric =>
    -- Whatever stands behind it, a number is no lone byte.
    intro _ hlone
    unfold cutNumeric at hlone
    dsimp only at hlone
    split at hlone
    · cases hlone
    · split at hlone <;> cases hlone
  case dot => exact fun _ _ => ⟨rfl, rfl⟩
  case identLike =>
    intro _
    have hident : ident? (b :: s) = none := by rw [ident?, hstart, Bool.false_and, if_neg (by decide)]
    obtain ⟨-, hended, hrest⟩ := cutIdentLike_of_none hident
    rw [hstart] at hrest
    exact ⟨hended, hrest⟩

end Lone

/-- A quote and a url start nothing else than a string and a url, broken or not. -/
lemma kind_cut_of_open {s : List UInt8} (h : s.head?.any isQuote = true ∨ OpensUrl s) :
    (cut s).kind ≠ .minus ∧ (cut s).kind ≠ .dot := by
  obtain hquote | ⟨name, t, hident, hname, hrest⟩ := h
  · cases s with
    | nil => cases hquote
    | cons b t =>
      obtain ⟨-, -, hcut⟩ := cut_of_quote hquote rfl
      rw [hcut]
      obtain h | ⟨v, q, h⟩ := kind_cutQuoted b t <;> rw [h] <;> exact ⟨nofun, nofun⟩
  · obtain ⟨-, -, hcut⟩ := cut_ident_of_startsIdent (startsIdent_of_ident? hident)
    rw [hcut, cutIdentLike_url hident hrest hname]
    obtain h | ⟨v, h⟩ := kind_cutUrl t <;> rw [h] <;> exact ⟨nofun, nofun⟩

/-- The kinds of lone tokens are those of a dash, of a point and of what is invalid. -/
lemma isLone_iff {kind : Kind} :
    kind.isLone = true ↔ kind = .minus ∨ kind = .dot ∨ kind = .invalid := by
  cases kind <;> simp [Kind.isLone]

end Lexer

namespace Scanner

variable (sc : Scanner)

/-- The next token stands for a scan that was given up: it is a dash, a point or a byte that starts
nothing. Broken strings and urls are not given up, they are lost with what they hold. -/
def GivesUp : Prop :=
  sc.next.token.kind = .minus ∨ sc.next.token.kind = .dot ∨
    (sc.next.token.kind = .invalid ∧ sc.ahead.head?.any isQuote = false ∧ ¬ OpensUrl sc.ahead)

variable {sc : Scanner}

/-- A scan is given up where a lone token neither starts with a quote nor opens a url. -/
lemma givesUp_iff : sc.GivesUp ↔ (cut sc.ahead).kind.isLone = true ∧
    sc.ahead.head?.any isQuote = false ∧ ¬ OpensUrl sc.ahead := by
  rw [GivesUp, kind_next, isLone_iff]
  constructor
  · intro h
    have hclosed : (cut sc.ahead).kind = .minus ∨ (cut sc.ahead).kind = .dot →
        ¬ (sc.ahead.head?.any isQuote = true ∨ OpensUrl sc.ahead) := by
      intro hkind hopen
      obtain ⟨hminus, hdot⟩ := kind_cut_of_open hopen
      exact hkind.elim hminus hdot
    rw [not_or, Bool.not_eq_true] at hclosed
    obtain hminus | hdot | ⟨hinvalid, hnone⟩ := h
    · exact ⟨.inl hminus, hclosed (.inl hminus)⟩
    · exact ⟨.inr (.inl hdot), hclosed (.inr hdot)⟩
    · exact ⟨.inr (.inr hinvalid), hnone⟩
  · rintro ⟨hminus | hdot | hinvalid, hnone⟩
    · exact .inl hminus
    · exact .inr (.inl hdot)
    · exact .inr (.inr ⟨hinvalid, hnone⟩)

/-- An escaped dash is given up as well, but behind its name. -/
lemma givesUp_of_escapedDash (h : EscapedDash sc.ahead) :
    sc.GivesUp ∧ sc.next.source.rest = (readName sc.ahead).rest ∧ ¬ sc.TakesOne := by
  obtain ⟨hstart, hident, hdash⟩ := escapedDash_iff.mp h
  obtain ⟨hne, -, hcut⟩ := cut_ident_of_startsIdent hstart
  obtain ⟨hlone, hended, hrest⟩ := cutIdentLike_of_none hident
  rw [if_pos ⟨hstart, hdash⟩] at hrest
  rw [← hcut] at hlone hended hrest
  refine ⟨givesUp_iff.mpr ⟨hlone, ?_, ?_⟩, sc.rest_next_ahead.trans hrest, ?_⟩
  · obtain ⟨t, ht⟩ := List.head?_eq_some_iff.mp h.1
    rw [ht]
    rfl
  · rintro ⟨name, t, hname, -⟩
    rw [hident] at hname
    cases hname
  · rw [sc.takesOne_iff hne hended, hrest]
    intro htail
    have hle := h.two_le_length
    rw [htail, List.length_tail] at hle
    omega

/-- A scan that is given up takes one byte, unless it is that of an escaped dash. -/
lemma takesOne_of_givesUp (h : sc.GivesUp) (hdash : ¬ EscapedDash sc.ahead) : sc.TakesOne := by
  obtain ⟨hlone, hquote, hurl⟩ := givesUp_iff.mp h
  cases hs : sc.ahead with
  | nil =>
    rw [hs] at hlone
    cases hlone
  | cons b s =>
    have hne : sc.ahead ≠ [] := hs ▸ List.cons_ne_nil b s
    by_cases hstart : startsIdent sc.ahead = true
    · obtain ⟨-, -, hcut⟩ := cut_ident_of_startsIdent hstart
      have hident : ident? sc.ahead = none := by
        by_contra hsome
        obtain ⟨name, hname⟩ := Option.ne_none_iff_exists'.mp hsome
        rw [hcut, isLone_cutIdentLike hname hurl] at hlone
        cases hlone
      obtain ⟨-, hended, hrest⟩ := cutIdentLike_of_none hident
      rw [if_neg fun hname => hdash (escapedDash_iff.mpr ⟨hstart, hident, hname.2⟩)] at hrest
      rw [← hcut] at hended hrest
      exact (sc.takesOne_iff hne hended).mpr hrest
    · rw [hs] at hlone hquote hstart
      obtain ⟨hended, hrest⟩ := cut_of_isLone (Bool.eq_false_iff.mpr hstart) hquote hlone
      rw [← hs] at hended hrest
      refine (sc.takesOne_iff hne hended).mpr ?_
      rw [hrest, hs]
      rfl

end Scanner

/-- A scan that is given up takes the byte it started with and nothing else, whatever it ran over. The
only exception is an escaped dash: this is given up too, but its whole name is taken. -/
theorem failed_scan_takes_one_iff (sc : Scanner) :
    (sc.GivesUp → (sc.TakesOne ↔ ¬ EscapedDash sc.ahead)) ∧
      (EscapedDash sc.ahead → sc.GivesUp ∧ sc.next.source.rest = (readName sc.ahead).rest) := by
  refine ⟨fun h => ⟨?_, Scanner.takesOne_of_givesUp h⟩, ?_⟩
  · intro hone hdash
    obtain ⟨-, -, hnot⟩ := Scanner.givesUp_of_escapedDash hdash
    exact hnot hone
  · intro hdash
    obtain ⟨hup, hrest, -⟩ := Scanner.givesUp_of_escapedDash hdash
    exact ⟨hup, hrest⟩

/-- A `!` in front of a comment and a part of its keyword is a single byte, and so is a dash in front
of an escape that names no character. An escaped dash takes the blank behind its digits along. -/
theorem failed_scan_takes_one_iff_examples :
    (Scanner.ofText "! /**/ importan" .origin).TakesOne ∧
    (Scanner.ofText "-\\d800 /" .origin).TakesOne ∧
    (Scanner.ofText "\\2d ;" .origin).GivesUp ∧
    (Scanner.ofText "\\2d ;" .origin).next.source.rest = [0x3B] := by
  have hkeyword : (Scanner.ofText "! /**/ importan" .origin).GivesUp := by
    refine .inr (.inr ⟨by decide +kernel, by decide +kernel, ?_⟩)
    rintro ⟨name, t, hname, -⟩
    rw [show ident? (Scanner.ofText "! /**/ importan" .origin).ahead = none by
      decide +kernel] at hname
    cases hname
  have hdash : (Scanner.ofText "-\\d800 /" .origin).GivesUp := .inl (by decide +kernel)
  have hescaped : EscapedDash (Scanner.ofText "\\2d ;" .origin).ahead :=
    ⟨by decide +kernel, by decide +kernel⟩
  obtain ⟨hup, hrest⟩ := (failed_scan_takes_one_iff _).2 hescaped
  refine ⟨((failed_scan_takes_one_iff _).1 hkeyword).mpr ?_,
    ((failed_scan_takes_one_iff _).1 hdash).mpr ?_, hup, hrest.trans (by decide +kernel)⟩
  · rintro ⟨hhead, -⟩
    exact absurd hhead (by decide +kernel)
  · rintro ⟨hhead, -⟩
    exact absurd hhead (by decide +kernel)

/-- In `\-` the scan is given up behind the dash, so the dash is no token of its own. -/
theorem escaped_dash_taken :
    (Scanner.ofText "\\-" .origin).GivesUp ∧ ¬ (Scanner.ofText "\\-" .origin).TakesOne ∧
    (tokenize "\\-" .origin).map Token.kind = [.invalid] := by
  have hdash : EscapedDash (Scanner.ofText "\\-" .origin).ahead :=
    ⟨by decide +kernel, by decide +kernel⟩
  obtain ⟨hup, -, hnot⟩ := Scanner.givesUp_of_escapedDash hdash
  exact ⟨hup, hnot, by decide +kernel⟩

end CssSyntax
