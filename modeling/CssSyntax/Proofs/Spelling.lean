import CssSyntax.Proofs.Nesting
import CssSyntax.Proofs.Stylesheet

/-!
# Spellings

What all spellings have in common, and which trees have one. The brackets of a spelling match, and
braces stand around the declarations of a ruleset only (`Tidy`, `Ruleset.Spelled.shape`). No spelling
holds the end of the input (`Stylesheet.Spelled.noEof`), and exactly the well-formed trees can be
spelled (`Stylesheet.wellFormed_iff_spelled`).
-/

namespace CssSyntax

/-! ### The end of the input -/

/-- Tokens that do not end the input. -/
def NoEof (ts : List Token) : Prop :=
  ∀ t ∈ ts, t.kind ≠ .eof

instance (ts : List Token) : Decidable (NoEof ts) :=
  inferInstanceAs (Decidable (∀ t ∈ ts, t.kind ≠ .eof))

/-- No tokens hold no end of the input. -/
@[simp] lemma noEof_nil : NoEof [] :=
  nofun

/-- A token and those behind it hold no end of the input if neither does. -/
@[simp] lemma noEof_cons {t : Token} {ts : List Token} :
    NoEof (t :: ts) ↔ t.kind ≠ .eof ∧ NoEof ts :=
  List.forall_mem_cons

/-- Two lists hold no end of the input if neither does. -/
@[simp] lemma noEof_append {ts us : List Token} : NoEof (ts ++ us) ↔ NoEof ts ∧ NoEof us :=
  List.forall_mem_append

/-! ### Brackets -/

/-- Whether a token is no bracket, starts neither a charset rule nor an at-rule that is not known, and
is not the end of the input. -/
def Kind.isPlain : Kind → Bool
  | lcurly | rcurly | lbracket | rbracket | lparen | rparen | function _ => false
  | atCharset | atUnknown | eof => false
  | _ => true

/-- Lists of plain tokens, with parentheses and square brackets that match. -/
inductive Tidy : List Token → Prop where
  | nil : Tidy []
  | cons {t : Token} {ts : List Token} : t.kind.isPlain = true → Tidy ts → Tidy (t :: ts)
  | enclose {o c : Token} {b : Bracket} {inner ts : List Token} :
    o.kind.opens? = some b → c.kind.closes? = some b → b ≠ .curly → Tidy inner → Tidy ts →
      Tidy (o :: (inner ++ c :: ts))

namespace Kind

/-- A plain token is no bracket and starts no charset rule and no at-rule that is not known. -/
lemma isPlain_elim {k : Kind} (h : k.isPlain = true) :
    k.opens? = none ∧ k.closes? = none ∧ k ∉ [.lcurly, .atCharset, .atUnknown, .eof] := by
  cases k with
  | lcurly | rcurly | lbracket | rbracket | lparen | rparen | function
  | atCharset | atUnknown | eof => cases h
  | _ => exact ⟨rfl, rfl, by simp⟩

/-- An opening parenthesis or square bracket starts no block and no at-rule. -/
lemma not_mem_of_opens {k : Kind} {b : Bracket} (h : k.opens? = some b) (hb : b ≠ .curly) :
    k ∉ [.lcurly, .atCharset, .atUnknown, .eof] := by
  cases k with
  | lcurly =>
    cases h
    exact absurd rfl hb
  | lbracket | lparen | function => simp
  | _ => cases h

/-- A closing bracket starts no block and no at-rule. -/
lemma not_mem_of_closes {k : Kind} {b : Bracket} (h : k.closes? = some b) :
    k ∉ [.lcurly, .atCharset, .atUnknown, .eof] := by
  cases k with
  | rcurly | rbracket | rparen => simp
  | _ => cases h

end Kind

namespace Tidy

variable {ts us : List Token}

/-- Tidy lists are tidy one behind the other. -/
lemma append (h : Tidy ts) (h' : Tidy us) : Tidy (ts ++ us) := by
  induction h with
  | nil => exact h'
  | cons ht _ ih => exact .cons ht ih
  | @enclose o c b inner ts ho hc hb hi _ _ ih =>
    rw [List.cons_append, List.append_assoc]
    exact .enclose ho hc hb hi ih

/-- The brackets of a tidy list match. -/
lemma nested (h : Tidy ts) : Nested ts := by
  induction h with
  | nil => exact .nil
  | cons ht _ ih =>
    obtain ⟨ho, hc, hk⟩ := Kind.isPlain_elim ht
    exact .cons ho hc (fun he => hk (he ▸ by simp)) ih
  | enclose ho hc _ _ _ ihi ih => exact .enclose ho hc ihi ih

/-- A tidy list holds no block, no at-rule that is not known and no end of the input. -/
lemma not_mem (h : Tidy ts) :
    ∀ t ∈ ts, t.kind ∉ [.lcurly, .atCharset, .atUnknown, .eof] := by
  induction h with
  | nil => nofun
  | cons ht _ ih => exact List.forall_mem_cons.mpr ⟨(Kind.isPlain_elim ht).2.2, ih⟩
  | enclose ho hc hb _ _ ihi ih =>
    refine List.forall_mem_cons.mpr ⟨Kind.not_mem_of_opens ho hb, ?_⟩
    exact List.forall_mem_append.mpr ⟨ihi, List.forall_mem_cons.mpr ⟨Kind.not_mem_of_closes hc, ih⟩⟩

/-- A tidy list holds no end of the input. -/
lemma noEof (h : Tidy ts) : NoEof ts :=
  h.nested.ne_eof

/-- A plain token of a known kind in front. -/
lemma plain {t : Token} {k : Kind} (ht : t.kind = k) (hk : k.isPlain = true) (h : Tidy ts) :
    Tidy (t :: ts) :=
  .cons ((congrArg Kind.isPlain ht).trans hk) h

/-- A tidy list in square brackets is tidy. -/
lemma brackets {l r : Token} (hl : l.kind = .lbracket) (hr : r.kind = .rbracket) (h : Tidy ts) :
    Tidy (l :: (ts ++ [r])) :=
  .enclose (congrArg Kind.opens? hl) (congrArg Kind.closes? hr) (by nofun) h .nil

/-- A function around a tidy list is tidy. -/
lemma call {name : String} {f r : Token} (hf : f.kind = .function name) (hr : r.kind = .rparen)
    (h : Tidy ts) (h' : Tidy us) : Tidy (f :: (ts ++ r :: us)) :=
  .enclose (congrArg Kind.opens? hf) (congrArg Kind.closes? hr) (by nofun) h h'

end Tidy

/-- What is kept by appending holds of items one behind the other if it holds of each of them. -/
lemma Each.all {α : Type} {S : α → List Token → Prop} {P : List Token → Prop} {as : List α}
    {ts : List Token} (h : Each S as ts) (hnil : P [])
    (happend : ∀ {ts us}, P ts → P us → P (ts ++ us)) (hs : ∀ a ts, S a ts → P ts) : P ts := by
  induction h with
  | nil => exact hnil
  | cons ha _ ih => exact happend (hs _ _ ha) ih

/-- Items are tidy if each of them is. -/
lemma Each.tidy {α : Type} {S : α → List Token → Prop} {as : List α} {ts : List Token}
    (h : Each S as ts) (hs : ∀ a ts, S a ts → Tidy ts) : Tidy ts :=
  h.all .nil .append hs

/-- What stands between rules is tidy. -/
lemma Fillers.tidy {fs : List Token} (h : Fillers fs) : Tidy fs := by
  induction fs with
  | nil => exact .nil
  | cons f fs ih =>
    obtain ⟨hf, hfs⟩ := List.forall_mem_cons.mp h
    refine .cons ?_ (ih hfs)
    revert hf
    cases f.kind <;> first | exact fun _ => rfl | nofun

/-- Blanks may stand between rules. -/
lemma isFiller_of_isWhitespace {k : Kind} (h : k.isWhitespace = true) : k.isFiller = true := by
  cases k <;> first | rfl | cases h

/-- Blanks are among what may stand between rules. -/
lemma Blanks.fillers {bs : List Token} (h : Blanks bs) : Fillers bs :=
  fun t ht => isFiller_of_isWhitespace (h t ht)

/-- Blanks are tidy. -/
lemma Blanks.tidy {bs : List Token} (h : Blanks bs) : Tidy bs :=
  h.fillers.tidy

/-- A sign is tidy. -/
lemma Sign.Spelled.tidy {sign : Option Sign} {ts : List Token} (h : Sign.Spelled sign ts) :
    Tidy ts := by
  cases h with
  | none => exact .nil
  | minus h | plus h => exact .plain h rfl .nil

/-- An operator is tidy. -/
lemma Operator.Spelled.tidy {op : Operator} {ts : List Token} (h : op.Spelled ts) : Tidy ts := by
  cases h with
  | slash ht hb | comma ht hb => exact .plain ht rfl hb.tidy
  | space => exact .nil

/-- Values are plain tokens. -/
lemma Kind.isPlain_of_ofKind? {k : Kind} {v : Value} (h : Value.ofKind? k = some v) :
    k.isPlain = true := by
  cases k <;> first | rfl | cases h

mutual

/-- A term is tidy. -/
lemma Term.Spelled.tidy : ∀ {t : Term} {ts : List Token}, t.Spelled ts → Tidy ts
  | _, _, .value hs hv hb => hs.tidy.append (.cons (Kind.isPlain_of_ofKind? hv) hb.tidy)
  | _, _, .function hs hf => hs.tidy.append hf.tidy

/-- A function is tidy. -/
lemma Function.Spelled.tidy : ∀ {f : Function} {ts : List Token}, f.Spelled ts → Tidy ts
  | _, _, .intro hf hb he hr hc => by
    rw [← List.append_assoc]
    exact .call hf hr (hb.tidy.append he.tidy) hc.tidy

/-- An expression is tidy. -/
lemma Expression.Spelled.tidy : ∀ {e : Expression} {ts : List Token}, e.Spelled ts → Tidy ts
  | _, _, .single ht => ht.tidy
  | _, _, .cons ht hop he => ht.tidy.append (hop.tidy.append he.tidy)

end

/-- A priority is tidy. -/
lemma PrioritySpelled.tidy {important : Bool} {ts : List Token}
    (h : PrioritySpelled important ts) : Tidy ts := by
  cases h with
  | absent => exact .nil
  | important ht hb => exact .plain ht rfl hb.tidy

/-- A declaration is tidy. -/
lemma Declaration.Spelled.tidy {d : Declaration} {ts : List Token} (h : d.Spelled ts) :
    Tidy ts := by
  cases h with
  | intro ht hb hc hcs he hp =>
    refine .plain ht rfl (hb.tidy.append (.plain hc rfl ?_))
    exact hcs.tidy.append (he.tidy.append hp.tidy)

/-- Operators of conditions are plain tokens. -/
lemma AttributeOperator.Spelled.isPlain {operator : AttributeOperator} {t : Token}
    (h : operator.Spelled t) : t.kind.isPlain = true := by
  cases h with
  | equals h | includes h | dashMatch h => exact congrArg Kind.isPlain h

/-- Values of conditions are plain tokens. -/
lemma AttributeValueSpelled.isPlain {value : String} {t : Token}
    (h : AttributeValueSpelled value t) : t.kind.isPlain = true := by
  cases h with
  | ident h | string h => exact congrArg Kind.isPlain h

/-- An attribute condition is tidy. -/
lemma AttributeTest.Spelled.tidy {test : AttributeTest} {ts : List Token} (h : test.Spelled ts) :
    Tidy ts := by
  cases h with
  | empty hl hb hr => exact .brackets hl hr hb.tidy
  | @present name l t r bs cs hl hb ht hc hr =>
    have hinner : Tidy (bs ++ t :: cs) := hb.tidy.append (.plain ht rfl hc.tidy)
    have h := Tidy.brackets hl hr hinner
    rwa [List.append_assoc] at h
  | @compared name value operator l t o v r bs cs ds es hl hb ht hc ho hd hv he hr =>
    have hvalue : Tidy (o :: (ds ++ v :: es)) :=
      .cons ho.isPlain (hd.tidy.append (.cons hv.isPlain he.tidy))
    have hinner : Tidy (bs ++ t :: (cs ++ o :: (ds ++ v :: es))) :=
      hb.tidy.append (.plain ht rfl (hc.tidy.append hvalue))
    have h := Tidy.brackets hl hr hinner
    simpa only [List.append_assoc, List.cons_append] using h

/-- The argument of a pseudo class is tidy. -/
lemma ArgumentSpelled.tidy {value : String} {ts : List Token} (h : ArgumentSpelled value ts) :
    Tidy ts := by
  cases h with
  | absent => exact .nil
  | ident ht hb => exact .plain ht rfl hb.tidy

/-- A condition is tidy. -/
lemma Simple.Spelled.tidy {s : Simple} {ts : List Token} (h : s.Spelled ts) : Tidy ts := by
  cases h with
  | id ht => exact .plain ht rfl .nil
  | className hd ht => exact .plain hd rfl (.plain ht rfl .nil)
  | attr ht => exact ht.tidy
  | pseudo hc ht => exact .plain hc rfl (.plain ht rfl .nil)
  | call hc hf hb ha hr =>
    refine .plain hc rfl ?_
    rw [← List.append_assoc]
    exact .call hf hr (hb.tidy.append ha.tidy) .nil

/-- A compound is tidy. -/
lemma Compound.Spelled.tidy {c : Compound} {ts : List Token} (h : c.Spelled ts) : Tidy ts := by
  cases h with
  | intro he hc _ =>
    refine Tidy.append ?_ (hc.tidy fun _ _ hs => hs.tidy)
    cases he with
    | absent => exact .nil
    | named ht | universal ht => exact .plain ht rfl .nil

/-- A combinator is tidy. -/
lemma Combinator.Spelled.tidy {c : Combinator} {ts : List Token} (h : c.Spelled ts) :
    Tidy ts := by
  cases h with
  | descendant ht => exact .plain ht rfl .nil
  | child ht hb | sibling ht hb => exact .plain ht rfl hb.tidy

/-- A selector is tidy. -/
lemma Selector.Spelled.tidy {s : Selector} {ts : List Token} (h : s.Spelled ts) : Tidy ts := by
  cases h with
  | intro hfirst hothers =>
    refine hfirst.tidy.append (hothers.tidy ?_)
    intro x us hx
    cases hx with
    | intro hc hs => exact hc.tidy.append hs.tidy

/-- Items between commas are tidy if each of them is. -/
lemma CommaSeparated.tidy {α : Type} {S : α → List Token → Prop} {as : List α} {ts : List Token}
    (h : CommaSeparated S as ts) (hs : ∀ a ts, S a ts → Tidy ts) : Tidy ts := by
  cases h with
  | intro ha has =>
    refine (hs _ _ ha).append (has.tidy ?_)
    intro a us hus
    cases hus with
    | intro hc hb ha => exact .plain hc rfl (hb.tidy.append (hs _ _ ha))

/-- Media are tidy. -/
lemma MediaSpelled.tidy {media : List String} {ts : List Token} (h : MediaSpelled media ts) :
    Tidy ts := by
  cases h with
  | absent => exact .nil
  | named hm =>
    apply hm.tidy
    intro medium us hus
    cases hus with
    | intro ht hb => exact .plain ht rfl hb.tidy

/-- Uris of imports are plain tokens. -/
lemma UriSpelled.isPlain {uri : String} {t : Token} (h : UriSpelled uri t) :
    t.kind.isPlain = true := by
  cases h with
  | string h | url h => exact congrArg Kind.isPlain h

/-- An import is tidy. -/
lemma Import.Spelled.tidy {i : Import} {ts : List Token} (h : i.Spelled ts) : Tidy ts := by
  cases h with
  | intro hi hb hu hc hm hs hd =>
    refine .plain hi rfl (hb.tidy.append (.cons hu.isPlain (hc.tidy.append ?_)))
    exact hm.tidy.append (.plain hs rfl hd.tidy)

/-- Semicolons and the blanks behind them are tidy. -/
lemma Semicolons.tidy {ss : List Token} (h : Semicolons ss) : Tidy ss := by
  induction h with
  | nil => exact .nil
  | cons hs hb _ ih => exact .plain hs rfl (hb.tidy.append ih)

/-- The declarations of a block are tidy. -/
lemma DeclarationsSpelled.tidy {ds : List Declaration} {ts : List Token}
    (h : DeclarationsSpelled ds ts) : Tidy ts := by
  cases h with
  | nil hs => exact hs.tidy
  | cons hs hd hds hv =>
    refine hs.tidy.append (hd.tidy.append (Tidy.append (hds.tidy ?_) hv.tidy))
    intro d us hus
    cases hus with
    | intro hs _ hd => exact hs.tidy.append hd.tidy

/-- A ruleset has a single block, and neither its selectors nor its declarations hold another one. -/
lemma Ruleset.Spelled.shape {r : Ruleset} {ts : List Token} (h : r.Spelled ts) :
    ∃ prelude l body c bs, ts = prelude ++ l :: (body ++ c :: bs) ∧ Tidy prelude ∧
      l.kind = .lcurly ∧ Tidy body ∧ c.kind = .rcurly ∧ Blanks bs := by
  cases h with
  | intro hs hb =>
    cases hb with
    | @intro l c bs ts cs hl hb hd hc hcs =>
      refine ⟨_, l, bs ++ ts, c, cs, ?_, hs.tidy fun _ _ hs => hs.tidy, hl,
        hb.tidy.append hd.tidy, hc, hcs⟩
      rw [List.append_assoc]

/-- A ruleset holds no end of the input. -/
lemma Ruleset.Spelled.noEof {r : Ruleset} {ts : List Token} (h : r.Spelled ts) : NoEof ts := by
  obtain ⟨prelude, l, body, c, bs, rfl, hp, hl, hb, hc, hbs⟩ := h.shape
  simp [hp.noEof, hl, hb.noEof, hc, hbs.tidy.noEof]

/-- A rule and what stands behind it hold no end of the input if the rule holds none. -/
lemma BeforeFillers.noEof {α : Type} {S : α → List Token → Prop} {a : α} {ts : List Token}
    (h : BeforeFillers S a ts) (hs : ∀ a ts, S a ts → NoEof ts) : NoEof ts := by
  cases h with
  | intro ha hf => exact noEof_append.mpr ⟨hs _ _ ha, hf.tidy.noEof⟩

/-- A charset holds no end of the input. -/
lemma CharsetSpelled.noEof {charset : Option String} {ts : List Token}
    (h : CharsetSpelled charset ts) : NoEof ts := by
  cases h <;> simp [*]

/-- No spelling holds the end of the input. -/
lemma Stylesheet.Spelled.noEof {s : Stylesheet} {ts : List Token} (h : s.Spelled ts) :
    NoEof ts := by
  cases h with
  | intro hc hf hi hr =>
    have happend : ∀ {ts us}, NoEof ts → NoEof us → NoEof (ts ++ us) :=
      fun hts hus => noEof_append.mpr ⟨hts, hus⟩
    have himports : NoEof _ :=
      hi.all noEof_nil happend fun _ _ h => h.noEof fun _ _ h => h.tidy.noEof
    have hrulesets : NoEof _ :=
      hr.all noEof_nil happend fun _ _ h => h.noEof fun _ _ h => h.noEof
    simp [hc.noEof, hf.tidy.noEof, himports, hrulesets]

/-! ### Which trees can be spelled -/

/-- The declarations of a block are well-formed. -/
lemma DeclarationsSpelled.wellFormed {ds : List Declaration} {ts : List Token}
    (h : DeclarationsSpelled ds ts) : ∀ d ∈ ds, d.WellFormed := by
  cases h with
  | nil => nofun
  | cons _ hd hds _ =>
    refine List.forall_mem_cons.mpr ⟨hd.wellFormed, hds.forall_mem ?_⟩
    intro d us hus
    cases hus with
    | intro _ _ hd => exact hd.wellFormed

/-- A ruleset that is spelled is well-formed. -/
lemma Ruleset.Spelled.wellFormed {r : Ruleset} {ts : List Token} (h : r.Spelled ts) :
    r.WellFormed := by
  cases h with
  | intro hs hb =>
    refine ⟨?_, hs.forall_mem fun _ _ hs => hs.wellFormed, ?_⟩
    · cases hs
      exact List.cons_ne_nil _ _
    · cases hb with
      | intro _ _ hd _ _ => exact hd.wellFormed

/-- A stylesheet that is spelled is well-formed. -/
lemma Stylesheet.Spelled.wellFormed {s : Stylesheet} {ts : List Token} (h : s.Spelled ts) :
    s.WellFormed := by
  cases h with
  | intro _ _ _ hr =>
    refine hr.forall_mem (P := Ruleset.WellFormed) ?_
    intro r us hus
    cases hus with
    | intro hr _ => exact hr.wellFormed

/-- A token of the given kind. -/
def Kind.token (k : Kind) : Token :=
  ⟨k, .origin⟩

/-- There may be no blanks. -/
lemma blanks_nil : Blanks [] :=
  nofun

/-- There may be nothing between two rules. -/
lemma fillers_nil : Fillers [] :=
  nofun

/-- Items can be spelled if each of them can. -/
lemma Each.exists {α : Type} {S : α → List Token → Prop} {as : List α}
    (h : ∀ a ∈ as, ∃ ts, S a ts) : ∃ ts, Each S as ts := by
  induction as with
  | nil => exact ⟨[], .nil⟩
  | cons a as ih =>
    obtain ⟨⟨ts, ha⟩, has⟩ := List.forall_mem_cons.mp h
    obtain ⟨us, hus⟩ := ih has
    exact ⟨ts ++ us, .cons ha hus⟩

/-- Items between commas can be spelled if each of them can and there is one. -/
lemma CommaSeparated.exists {α : Type} {S : α → List Token → Prop} {as : List α} (hne : as ≠ [])
    (h : ∀ a ∈ as, ∃ ts, S a ts) : ∃ ts, CommaSeparated S as ts := by
  cases as with
  | nil => exact absurd rfl hne
  | cons a as =>
    obtain ⟨⟨ts, ha⟩, has⟩ := List.forall_mem_cons.mp h
    obtain ⟨us, hus⟩ : ∃ us, Each (AfterComma S) as us := by
      apply Each.exists
      intro b hb
      obtain ⟨vs, hvs⟩ := has b hb
      exact ⟨_, .intro (c := Kind.comma.token) rfl blanks_nil hvs⟩
    exact ⟨ts ++ us, .intro ha hus⟩

/-- Every sign can be spelled. -/
lemma Sign.exists_spelled (sign : Option Sign) : ∃ ts, Sign.Spelled sign ts := by
  match sign with
  | none => exact ⟨_, .none⟩
  | some .minus => exact ⟨_, .minus (t := Kind.minus.token) rfl⟩
  | some .plus => exact ⟨_, .plus (t := Kind.plus.token) rfl⟩

/-- Every operator can be spelled. -/
lemma Operator.exists_spelled (op : Operator) : ∃ ts, op.Spelled ts := by
  cases op with
  | slash => exact ⟨_, .slash (t := Kind.slash.token) rfl blanks_nil⟩
  | comma => exact ⟨_, .comma (t := Kind.comma.token) rfl blanks_nil⟩
  | space => exact ⟨_, .space⟩

/-- Every value is that of a token. -/
lemma Value.exists_kind (v : Value) : ∃ k, Value.ofKind? k = some v := by
  cases v with
  | numeric text measure => exact ⟨.numeric text measure, rfl⟩
  | string text => exact ⟨.string text '"', rfl⟩
  | ident name => exact ⟨.ident name, rfl⟩
  | url text => exact ⟨.url text, rfl⟩
  | color digits => exact ⟨.hash digits, rfl⟩

/-- Terms that can be spelled make an expression that can be spelled. -/
lemma Expression.exists_spelled {terms : List Term} {operators : List Operator}
    (h : ∀ t ∈ terms, ∃ ts, t.Spelled ts) (hl : terms.length = operators.length + 1) :
    ∃ ts, Expression.Spelled ⟨terms, operators⟩ ts := by
  induction operators generalizing terms with
  | nil =>
    obtain ⟨t, rfl⟩ := List.length_eq_one_iff.mp hl
    obtain ⟨ts, ht⟩ := h t List.mem_cons_self
    exact ⟨ts, .single ht⟩
  | cons op operators ih =>
    cases terms with
    | nil => cases hl
    | cons t terms =>
      obtain ⟨⟨ts, ht⟩, hterms⟩ := List.forall_mem_cons.mp h
      obtain ⟨os, hop⟩ := op.exists_spelled
      obtain ⟨us, hus⟩ := ih hterms (Nat.succ.inj hl)
      exact ⟨ts ++ (os ++ us), .cons ht hop hus⟩

/-- A term that is well-formed can be spelled. -/
lemma Term.WellFormed.exists_spelled {t : Term} (h : t.WellFormed) : ∃ ts, t.Spelled ts := by
  induction h with
  | value sign v =>
    obtain ⟨ss, hs⟩ := Sign.exists_spelled sign
    obtain ⟨k, hk⟩ := v.exists_kind
    exact ⟨_, .value (t := k.token) hs hk blanks_nil⟩
  | function sign name _ hl ih =>
    obtain ⟨ss, hs⟩ := Sign.exists_spelled sign
    obtain ⟨ts, he⟩ := Expression.exists_spelled ih hl
    exact ⟨_, .function hs (.intro (f := (Kind.function name).token) (r := Kind.rparen.token) rfl
      blanks_nil he rfl blanks_nil)⟩

/-- A declaration that is well-formed can be spelled. -/
lemma Declaration.WellFormed.exists_spelled {d : Declaration} (h : d.WellFormed) :
    ∃ ts, d.Spelled ts := by
  obtain ⟨property, value, important⟩ := d
  obtain ⟨ts, he⟩ := Expression.exists_spelled (fun t ht => (h.terms t ht).exists_spelled)
    h.operators
  obtain ⟨ps, hp⟩ : ∃ ps, PrioritySpelled important ps := by
    cases important with
    | false => exact ⟨_, .absent⟩
    | true => exact ⟨_, .important (t := Kind.important.token) rfl blanks_nil⟩
  exact ⟨_, .intro (t := (Kind.ident property).token) (c := Kind.colon.token) rfl blanks_nil rfl
    blanks_nil he hp⟩

/-- An attribute condition that is well-formed can be spelled. -/
lemma AttributeTest.WellFormed.exists_spelled {test : AttributeTest} (h : test.WellFormed) :
    ∃ ts, test.Spelled ts := by
  cases h with
  | empty =>
    exact ⟨_, .empty (l := Kind.lbracket.token) (r := Kind.rbracket.token) rfl blanks_nil rfl⟩
  | present name =>
    exact ⟨_, .present (l := Kind.lbracket.token) (t := (Kind.ident name).token)
      (r := Kind.rbracket.token) rfl blanks_nil rfl blanks_nil rfl⟩
  | compared name operator value =>
    obtain ⟨o, ho⟩ : ∃ o, operator.Spelled o := by
      cases operator with
      | equals => exact ⟨_, .equals (t := Kind.equals.token) rfl⟩
      | includes => exact ⟨_, .includes (t := Kind.includes.token) rfl⟩
      | dashMatch => exact ⟨_, .dashMatch (t := Kind.dashMatch.token) rfl⟩
    exact ⟨_, .compared (l := Kind.lbracket.token) (t := (Kind.ident name).token)
      (v := (Kind.ident value).token) (r := Kind.rbracket.token) rfl blanks_nil rfl blanks_nil ho
      blanks_nil (.ident rfl) blanks_nil rfl⟩

/-- A condition that is well-formed can be spelled. -/
lemma Simple.WellFormed.exists_spelled {s : Simple} (h : s.WellFormed) : ∃ ts, s.Spelled ts := by
  match s with
  | .id name => exact ⟨_, .id (t := (Kind.hash name).token) rfl⟩
  | .className name =>
    exact ⟨_, .className (d := Kind.dot.token) (t := (Kind.ident name).token) rfl rfl⟩
  | .attr test =>
    obtain ⟨ts, ht⟩ := AttributeTest.WellFormed.exists_spelled h
    exact ⟨ts, .attr ht⟩
  | .pseudo name none =>
    exact ⟨_, .pseudo (c := Kind.colon.token) (t := (Kind.ident name).token) rfl rfl⟩
  | .pseudo name (some value) =>
    exact ⟨_, .call (c := Kind.colon.token) (f := (Kind.function name).token)
      (r := Kind.rparen.token) rfl rfl blanks_nil
      (.ident (t := (Kind.ident value).token) rfl blanks_nil) rfl⟩

/-- A compound that is well-formed can be spelled. -/
lemma Compound.WellFormed.exists_spelled {c : Compound} (h : c.WellFormed) :
    ∃ ts, c.Spelled ts := by
  obtain ⟨element, conditions⟩ := c
  obtain ⟨us, hus⟩ := Each.exists fun s hs => (h.conditions s hs).exists_spelled
  obtain ⟨ts, hts⟩ : ∃ ts, ElementName.Spelled element ts := by
    match element with
    | none => exact ⟨_, .absent⟩
    | some (.named name) => exact ⟨_, .named (t := (Kind.ident name).token) rfl⟩
    | some .universal => exact ⟨_, .universal (t := Kind.star.token) rfl⟩
  exact ⟨ts ++ us, .intro hts hus fun hn => h.nonempty hn.1 hn.2⟩

/-- Every combinator can be spelled. -/
lemma Combinator.exists_spelled (c : Combinator) : ∃ ts, c.Spelled ts := by
  cases c with
  | descendant => exact ⟨_, .descendant (t := (Kind.whitespace " ").token) rfl⟩
  | child => exact ⟨_, .child (t := Kind.greater.token) rfl blanks_nil⟩
  | sibling => exact ⟨_, .sibling (t := Kind.plus.token) rfl blanks_nil⟩

/-- A selector that is well-formed can be spelled. -/
lemma Selector.WellFormed.exists_spelled {s : Selector} (h : s.WellFormed) :
    ∃ ts, s.Spelled ts := by
  obtain ⟨compounds, combinators⟩ := s
  obtain ⟨hcompounds, hlength⟩ := h
  cases compounds with
  | nil => cases hlength
  | cons first compounds =>
    obtain ⟨hfirst, hothers⟩ := List.forall_mem_cons.mp hcompounds
    have hl : combinators.length = compounds.length := (Nat.succ.inj hlength).symm
    -- the combinators and the compounds behind them, pair by pair
    obtain ⟨us, hus⟩ : ∃ us, Each (Pair Combinator.Spelled Compound.Spelled)
        (combinators.zip compounds) us := by
      apply Each.exists
      intro x hx
      obtain ⟨c, compound⟩ := x
      obtain ⟨vs, hvs⟩ := c.exists_spelled
      obtain ⟨ws, hws⟩ := (hothers compound (List.of_mem_zip hx).2).exists_spelled
      exact ⟨_, .intro hvs hws⟩
    obtain ⟨ts, hts⟩ := hfirst.exists_spelled
    have hs := Selector.Spelled.intro hts hus
    rw [List.map_snd_zip (Nat.le_of_eq hl.symm), List.map_fst_zip (Nat.le_of_eq hl)] at hs
    exact ⟨_, hs⟩

/-- A ruleset that is well-formed can be spelled. -/
lemma Ruleset.WellFormed.exists_spelled {r : Ruleset} (h : r.WellFormed) : ∃ ts, r.Spelled ts := by
  obtain ⟨selectors, declarations⟩ := r
  obtain ⟨ts, hts⟩ :=
    CommaSeparated.exists h.nonempty fun s hs => (h.selectors s hs).exists_spelled
  obtain ⟨us, hus⟩ : ∃ us, DeclarationsSpelled declarations us := by
    cases declarations with
    | nil => exact ⟨[], .nil .nil⟩
    | cons d ds =>
      obtain ⟨hd, hds⟩ := List.forall_mem_cons.mp h.declarations
      obtain ⟨vs, hvs⟩ := hd.exists_spelled
      obtain ⟨ws, hws⟩ : ∃ ws, Each AfterSemicolons ds ws := by
        apply Each.exists
        intro d' hd'
        obtain ⟨xs, hxs⟩ := (hds d' hd').exists_spelled
        exact ⟨_, .intro (.cons (s := Kind.semicolon.token) rfl blanks_nil .nil)
          (List.cons_ne_nil _ _) hxs⟩
      exact ⟨_, .cons .nil hvs hws .nil⟩
  exact ⟨_, .intro hts (.intro (l := Kind.lcurly.token) (r := Kind.rcurly.token) rfl blanks_nil hus
    rfl blanks_nil)⟩

/-- Every import can be spelled. -/
lemma Import.exists_spelled (i : Import) : ∃ ts, i.Spelled ts := by
  obtain ⟨uri, media⟩ := i
  obtain ⟨ms, hms⟩ : ∃ ms, MediaSpelled media ms := by
    by_cases hne : media = []
    · rw [hne]
      exact ⟨[], .absent⟩
    · obtain ⟨ms, hms⟩ := CommaSeparated.exists (S := MediumSpelled) hne fun medium _ =>
        ⟨_, .intro (t := (Kind.ident medium).token) rfl blanks_nil⟩
      exact ⟨ms, .named hms⟩
  exact ⟨_, .intro (i := Kind.atImport.token) (u := (Kind.url uri).token)
    (s := Kind.semicolon.token) rfl blanks_nil (.url rfl) blanks_nil hms rfl blanks_nil⟩

/-- Exactly the well-formed stylesheets can be spelled. -/
lemma Stylesheet.wellFormed_iff_spelled (s : Stylesheet) : s.WellFormed ↔ ∃ ts, s.Spelled ts := by
  refine ⟨fun h => ?_, fun ⟨ts, h⟩ => h.wellFormed⟩
  obtain ⟨charset, imports, rulesets⟩ := s
  obtain ⟨cs, hcs⟩ : ∃ cs, CharsetSpelled charset cs := by
    cases charset with
    | none => exact ⟨[], .absent⟩
    | some name =>
      exact ⟨_, .named (c := Kind.atCharset.token) (w := (Kind.whitespace " ").token)
        (t := (Kind.string name '"').token) (s := Kind.semicolon.token) rfl rfl rfl rfl⟩
  obtain ⟨is, his⟩ : ∃ is, Each (BeforeFillers Import.Spelled) imports is := by
    apply Each.exists
    intro i _
    obtain ⟨ts, hts⟩ := i.exists_spelled
    exact ⟨_, .intro hts fillers_nil⟩
  obtain ⟨rs, hrs⟩ : ∃ rs, Each (BeforeFillers Ruleset.Spelled) rulesets rs := by
    apply Each.exists
    intro r hr
    obtain ⟨ts, hts⟩ := (h r hr).exists_spelled
    exact ⟨_, .intro hts fillers_nil⟩
  exact ⟨_, .intro hcs fillers_nil his hrs⟩

end CssSyntax
