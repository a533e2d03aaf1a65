import Mathlib.Data.List.TakeWhile
import CssSyntax.Proofs.Completeness
import CssSyntax.Proofs.Lockstep
import CssSyntax.Proofs.Spelling
import CssSyntax.Proofs.Totality

/-!
# Parsing inverts spelling

Whatever tokens spell a stylesheet, reading them gives this stylesheet again
(`parse_inverts_spelling`). Selectors and media stop in front of a token that does not continue them.
Rules end in blanks, and reading takes all blanks behind them along, also those that the spelling
counts to what stands between two rules; so these lemmas say what is left without them.
-/

namespace CssSyntax

/-! ### Reading on -/

/-- Tokens without the blanks in front of them. -/
def dropBlanks (ts : List Token) : List Token :=
  ts.dropWhile (·.kind.isWhitespace)

/-- Tokens without those in front of them that may stand between two rules. -/
def dropFillers (ts : List Token) : List Token :=
  ts.dropWhile (·.kind.isFiller)

/-- Blanks in front are dropped with those behind them. -/
lemma dropBlanks_append {bs us : List Token} (hb : Blanks bs) :
    dropBlanks (bs ++ us) = dropBlanks us :=
  List.dropWhile_append_of_pos hb

/-- Nothing is dropped in front of a token that is no blank. -/
lemma dropBlanks_of_startsWith {ts : List Token} (h : StartsWith Kind.NoBlank ts) :
    dropBlanks ts = ts := by
  obtain ⟨t, us, rfl, ht⟩ := h
  exact List.dropWhile_cons_of_neg (Bool.eq_false_iff.mp ht)

/-- What stands between rules is dropped with what is like it behind. -/
lemma dropFillers_append {fs us : List Token} (hf : Fillers fs) :
    dropFillers (fs ++ us) = dropFillers us :=
  List.dropWhile_append_of_pos hf

/-- Nothing is dropped in front of a token that does not stand between rules. -/
lemma dropFillers_cons {t : Token} (h : t.kind.isFiller = false) (us : List Token) :
    dropFillers (t :: us) = t :: us :=
  List.dropWhile_cons_of_neg (p := fun t : Token => t.kind.isFiller) (Bool.eq_false_iff.mp h)

/-- Blanks may stand between two rules. -/
lemma dropFillers_dropBlanks (ts : List Token) : dropFillers (dropBlanks ts) = dropFillers ts := by
  have hb : Fillers (ts.takeWhile (·.kind.isWhitespace)) := by
    intro t ht
    exact isFiller_of_isWhitespace
      (List.mem_takeWhile_imp (p := fun t : Token => t.kind.isWhitespace) ht)
  calc dropFillers (dropBlanks ts)
      = dropFillers (ts.takeWhile (·.kind.isWhitespace) ++ dropBlanks ts) :=
        (dropFillers_append hb).symm
    _ = dropFillers ts := by rw [dropBlanks, List.takeWhile_append_dropWhile]

/-- Skipping blanks drops them from what is left. -/
lemma Parser.skipBlanks_unread (p : Parser) : p.skipBlanks.unread = dropBlanks p.unread := by
  obtain ⟨_, -, hu⟩ := p.skipWhile_unread Kind.isWhitespace rfl
  exact hu

/-- Skipping what stands between rules drops it from what is left. -/
lemma Parser.skipFiller_unread (p : Parser) : p.skipFiller.unread = dropFillers p.unread := by
  obtain ⟨_, -, hu⟩ := p.skipWhile_unread Kind.isFiller rfl
  exact hu

namespace ParseM.Yields

variable {α β : Type} {p : Parser} {t : Token} {us vs : List Token}

/-- Skipping blanks leaves no blank in front. -/
lemma skipBlanks_behind {bs : List Token} (hb : Blanks bs) (hu : p.unread = bs ++ us) :
    ParseM.skipBlanks.Yields p () (dropBlanks us) := by
  obtain ⟨ts, hr, hs⟩ := p.skipWhile_unread Kind.isWhitespace rfl
  refine ⟨ts, p.skipBlanks, rfl, hr, hs.trans ?_⟩
  rw [hu]
  exact dropBlanks_append hb

/-- Moving past a token and the blanks behind it leaves no blank in front. -/
lemma advanceBlanks_behind {bs : List Token} (ht : t.kind ≠ .eof) (hb : Blanks bs)
    (hu : p.unread = t :: (bs ++ us)) : ParseM.advanceBlanks.Yields p () (dropBlanks us) :=
  (advance hu ht).bind fun _ _ _ hq => skipBlanks_behind hb hq

/-- Skipping what stands between rules leaves what is behind it. -/
lemma skipFiller (hu : dropFillers p.unread = us) :
    (change Parser.skipFiller).Yields p () us := by
  obtain ⟨_, hr⟩ := p.skipFiller_reads
  exact ⟨_, p.skipFiller, rfl, hr, p.skipFiller_unread.trans hu⟩

/-- What succeeds gives the same with recovery around it. -/
lemma orResync {m : ParseM α} {a : α} (production : Production) (boundary : Boundary)
    (h : m.Yields p a us) : (ParseM.orResync production boundary m).Yields p (some a) us := by
  obtain ⟨ts, q, he, hr, hu⟩ := h
  exact ⟨ts, q, orResync_of_ok production boundary he, hr, hu⟩

variable {step : ParseM (Option (Option α))} {as : List α}

/-- A repetition that leaves results out gives nothing where its step gives nothing. -/
lemma manySome_nil (h : step.Yields p none us) : (manySome step).Yields p [] us := by
  obtain ⟨ts, q, he, hr, hu⟩ := h
  exact ⟨ts, q, manySome_of_none he, hr, hu⟩

/-- A repetition that leaves results out gives what its step gives, if anything, and then the rest.
-/
lemma manySome_cons {r : Option α} (h : step.Yields p (some r) us) (hadv : Advances step)
    (hs : ∀ ts q, p.Reads ts q → q.unread = us → (manySome step).Yields q as vs) :
    (manySome step).Yields p (r.toList ++ as) vs := by
  obtain ⟨ts, q, he, hr, hu⟩ := h
  obtain ⟨ts', q', he', hr', hu'⟩ := hs ts q hr hu
  exact ⟨ts ++ ts', q', manySome_of_some hadv he he', hr.trans hr', hu'⟩

end ParseM.Yields

/-! ### Selectors -/

namespace Kind

/-- Whether a token can start a condition of a compound. -/
def startsCondition : Kind → Bool
  | hash _ | dot | lbracket | colon => true
  | _ => false

/-- Whether a token continues the selector in front of it. -/
def continuesSelector : Kind → Bool
  | whitespace _ | greater | plus => true
  | k => k.startsCondition

/-- What starts a condition starts a selector. -/
lemma startsSelector_of_startsCondition {k : Kind} (h : k.startsCondition = true) :
    k.startsSelector = true := by
  cases k <;> first | rfl | cases h

/-- A selector does not start with a blank. -/
lemma noBlank_of_startsSelector {k : Kind} (h : k.startsSelector = true) : k.NoBlank := by
  cases k <;> first | rfl | cases h

/-- What does not continue a selector starts no condition. -/
lemma startsCondition_of_continuesSelector {k : Kind} (h : k.continuesSelector = false) :
    k.startsCondition = false := by
  cases k <;> first | rfl | cases h

end Kind

/-- A condition starts with one of its tokens. -/
lemma Simple.Spelled.starts {s : Simple} {ts : List Token} (h : s.Spelled ts) :
    StartsWith (fun k => k.startsCondition = true) ts := by
  cases h with
  | id ht => exact ⟨_, _, rfl, congrArg Kind.startsCondition ht⟩
  | className hd _ => exact ⟨_, _, rfl, congrArg Kind.startsCondition hd⟩
  | attr h =>
    cases h with
    | empty hl => exact ⟨_, _, rfl, congrArg Kind.startsCondition hl⟩
    | present hl => exact ⟨_, _, rfl, congrArg Kind.startsCondition hl⟩
    | compared hl => exact ⟨_, _, rfl, congrArg Kind.startsCondition hl⟩
  | pseudo hc _ => exact ⟨_, _, rfl, congrArg Kind.startsCondition hc⟩
  | call hc => exact ⟨_, _, rfl, congrArg Kind.startsCondition hc⟩

/-- A compound starts with a token that starts selectors. -/
lemma Compound.Spelled.starts {c : Compound} {ts : List Token} (h : c.Spelled ts) :
    StartsWith (fun k => k.startsSelector = true) ts := by
  cases h with
  | intro he hc hne =>
    cases he with
    | absent =>
      cases hc with
      | nil => exact absurd ⟨rfl, rfl⟩ hne
      | cons hs _ =>
        obtain ⟨t, us, rfl, ht⟩ := hs.starts
        exact ⟨t, _, rfl, Kind.startsSelector_of_startsCondition ht⟩
    | named ht => exact ⟨_, _, rfl, congrArg Kind.startsSelector ht⟩
    | universal ht => exact ⟨_, _, rfl, congrArg Kind.startsSelector ht⟩

/-- A combinator does not start like a condition. -/
lemma Combinator.Spelled.starts {c : Combinator} {ts : List Token} (h : c.Spelled ts) :
    StartsWith (fun k => k.startsCondition = false) ts := by
  cases h with
  | descendant ht => exact ⟨_, _, rfl, congrArg Kind.startsCondition ht⟩
  | child ht _ => exact ⟨_, _, rfl, congrArg Kind.startsCondition ht⟩
  | sibling ht _ => exact ⟨_, _, rfl, congrArg Kind.startsCondition ht⟩

/-- A selector starts with a token that starts selectors. -/
lemma Selector.Spelled.starts {s : Selector} {ts : List Token} (h : s.Spelled ts) :
    StartsWith (fun k => k.startsSelector = true) ts := by
  cases h with
  | intro hfirst _ => exact hfirst.starts.append _

namespace Grammar

open ParseM

/-- Operators of conditions are no blanks. -/
lemma noBlank_of_operator {operator : AttributeOperator} {t : Token} (h : operator.Spelled t) :
    t.kind.NoBlank := by
  cases h with
  | equals h | includes h | dashMatch h => exact congrArg Kind.isWhitespace h

/-- Operators of conditions do not close the condition. -/
lemma ne_rbracket_of_operator {operator : AttributeOperator} {t : Token} (h : operator.Spelled t) :
    t.kind ≠ .rbracket := by
  cases h with
  | equals h | includes h | dashMatch h =>
    rw [h]
    nofun

/-- Values of conditions are no blanks. -/
lemma noBlank_of_value {value : String} {t : Token} (h : AttributeValueSpelled value t) :
    t.kind.NoBlank := by
  cases h with
  | ident h | string h => exact congrArg Kind.isWhitespace h

/-- The operator of a condition is read off its token and left there. -/
lemma attributeOperator_yields {operator : AttributeOperator} {t : Token} {us : List Token}
    {p : Parser} (h : operator.Spelled t) (hu : p.unread = t :: us) :
    attributeOperator.Yields p operator (t :: us) := by
  apply Yields.kind hu
  cases h with
  | equals h | includes h | dashMatch h =>
    rw [h]
    exact .pure hu

/-- The value of a condition is read off its token and left there. -/
lemma attributeValue_yields {value : String} {t : Token} {us : List Token} {p : Parser}
    (h : AttributeValueSpelled value t) (hu : p.unread = t :: us) :
    attributeValue.Yields p value (t :: us) := by
  apply Yields.kind hu
  cases h with
  | ident h | string h =>
    rw [h]
    exact .pure hu

/-- The argument of a pseudo class is read off its spelling in front of the parenthesis. -/
lemma pseudoArgument_yields {value : String} {ts us : List Token} {r : Token} {p : Parser}
    (h : ArgumentSpelled value ts) (hr : r.kind = .rparen) (hu : p.unread = ts ++ r :: us) :
    pseudoArgument.Yields p value (r :: us) := by
  cases h with
  | absent =>
    apply Yields.kind hu
    rw [hr]
    exact .pure hu
  | ident ht hb =>
    apply Yields.kind hu
    rw [ht]
    have hblank : r.kind.isWhitespace = false := congrArg Kind.isWhitespace hr
    exact (Yields.advanceBlanks (by rw [ht]; nofun) hb hblank hu).bind_pure

/-- An attribute condition is read off its spelling. -/
lemma attributeSelector_yields {test : AttributeTest} {ts us : List Token} {p : Parser}
    (h : test.Spelled ts) (hu : p.unread = ts ++ us) : attributeSelector.Yields p test us := by
  apply Yields.enter
  cases h with
  | @empty l r bs hl hb hr =>
    have hu : p.unread = l :: (bs ++ r :: us) := by
      simpa only [List.cons_append, List.append_assoc, List.nil_append] using hu
    have hblank : r.kind.isWhitespace = false := congrArg Kind.isWhitespace hr
    apply (Yields.expect (p := p.note _) hl nofun hu).bind
    intro _ q _ hq
    apply (Yields.skipBlanks hb hblank hq).bind
    intro _ s _ hs
    apply Yields.kind hs
    -- only a bracket that closes right behind the blanks leaves the condition empty
    rw [if_pos hr]
    exact (Yields.advance hs (by rw [hr]; nofun)).bind_pure
  | @present name l t r bs cs hl hb ht hc hr =>
    have hu : p.unread = l :: (bs ++ t :: (cs ++ r :: us)) := by
      simpa only [List.cons_append, List.append_assoc, List.nil_append] using hu
    have htblank : t.kind.isWhitespace = false := congrArg Kind.isWhitespace ht
    have hrblank : r.kind.isWhitespace = false := congrArg Kind.isWhitespace hr
    apply (Yields.expect (p := p.note _) hl nofun hu).bind
    intro _ q _ hq
    apply (Yields.skipBlanks hb htblank hq).bind
    intro _ s _ hs
    apply Yields.kind hs
    rw [if_neg (by rw [ht]; nofun)]
    apply (Yields.ident ht hs).bind
    intro _ v _ hv
    apply (Yields.skipBlanks hc hrblank hv).bind
    intro _ w _ hw
    apply Yields.kind hw
    rw [if_pos hr]
    exact (Yields.advance hw (by rw [hr]; nofun)).bind_pure
  | @compared name value operator l t o v r bs cs ds es hl hb ht hc ho hd hv he hr =>
    have hu : p.unread = l :: (bs ++ t :: (cs ++ o :: (ds ++ v :: (es ++ r :: us)))) := by
      simpa only [List.cons_append, List.append_assoc, List.nil_append] using hu
    have htblank : t.kind.isWhitespace = false := congrArg Kind.isWhitespace ht
    have hrblank : r.kind.isWhitespace = false := congrArg Kind.isWhitespace hr
    apply (Yields.expect (p := p.note _) hl nofun hu).bind
    intro _ q _ hq
    apply (Yields.skipBlanks hb htblank hq).bind
    intro _ s _ hs
    apply Yields.kind hs
    rw [if_neg (by rw [ht]; nofun)]
    apply (Yields.ident ht hs).bind
    intro _ x _ hx
    apply (Yields.skipBlanks hc (noBlank_of_operator ho) hx).bind
    intro _ y _ hy
    apply Yields.kind hy
    rw [if_neg (ne_rbracket_of_operator ho)]
    -- the operator is looked at without being read, and the blanks behind it are read with it
    apply (attributeOperator_yields ho hy).bind
    intro _ z _ hz
    apply (Yields.advanceBlanks (inner_of_operator ho).ne_eof hd (noBlank_of_value hv) hz).bind
    intro _ a _ ha
    apply (attributeValue_yields hv ha).bind
    intro _ b _ hb
    apply (Yields.advanceBlanks (inner_of_value hv).ne_eof he hrblank hb).bind
    intro _ c _ hc
    exact (Yields.expect hr nofun hc).bind_pure

/-- A condition is read whatever stands behind it. -/
lemma condition_yields {s : Simple} {ts us : List Token} {p : Parser} (h : s.Spelled ts)
    (hu : p.unread = ts ++ us) : condition?.Yields p (some s) us := by
  cases h with
  | id ht =>
    apply Yields.kind hu
    rw [ht]
    exact (Yields.advance hu (by rw [ht]; nofun)).bind_pure
  | className hd ht =>
    apply Yields.kind hu
    rw [hd]
    refine Yields.bind_pure (g := some) (Yields.enter ?_)
    apply (Yields.expect (p := p.note _) hd nofun hu).bind
    intro _ q _ hq
    exact (Yields.ident ht hq).bind_pure
  | attr h =>
    obtain ⟨l, ls, rfl, hl⟩ : StartsWith (· = .lbracket) ts := by
      cases h with
      | empty hl => exact ⟨_, _, rfl, hl⟩
      | present hl => exact ⟨_, _, rfl, hl⟩
      | compared hl => exact ⟨_, _, rfl, hl⟩
    apply Yields.kind hu
    rw [hl]
    exact (attributeSelector_yields h hu).bind_pure
  | pseudo hc ht =>
    apply Yields.kind hu
    rw [hc]
    refine Yields.bind_pure (g := some) (Yields.enter ?_)
    apply (Yields.expect (p := p.note _) hc nofun hu).bind
    intro _ q _ hq
    apply Yields.kind hq
    rw [ht]
    exact (Yields.advance hq (by rw [ht]; nofun)).bind_pure
  | @call name value c f r bs ts hc hf hb ha hr =>
    have hu : p.unread = c :: f :: (bs ++ (ts ++ r :: us)) := by
      simpa only [List.cons_append, List.append_assoc, List.nil_append] using hu
    apply Yields.kind hu
    rw [hc]
    refine Yields.bind_pure (g := some) (Yields.enter ?_)
    apply (Yields.expect (p := p.note _) hc nofun hu).bind
    intro _ q _ hq
    apply Yields.kind hq
    rw [hf]
    -- the argument may be missing, so the blanks end at it or at the parenthesis
    have hblank : StartsWith Kind.NoBlank (ts ++ r :: us) := by
      cases ha with
      | absent => exact ⟨r, us, rfl, congrArg Kind.isWhitespace hr⟩
      | ident hv _ => exact ⟨_, _, rfl, congrArg Kind.isWhitespace hv⟩
    apply (Yields.advanceBlanks_behind (by rw [hf]; nofun) hb hq).bind
    intro _ s _ hs
    rw [dropBlanks_of_startsWith hblank] at hs
    apply (pseudoArgument_yields ha hr hs).bind
    intro _ v _ hv
    exact (Yields.expect hr nofun hv).bind_pure

/-- A condition moves the window on. -/
lemma condition_advances : Advances condition? :=
  .of_run condition_run

/-- Conditions are accepted in front of what starts no further one. -/
lemma acceptsConditions :
    Accepts 0 (many condition?) (Each Simple.Spelled) Kind.startsCondition := by
  refine .many (fun _ => false) condition_advances ?_ ?_ ?_ fun _ _ => rfl
  · intro p r ts us u hr _ _ hu
    obtain ⟨s, rfl, hs⟩ := hr
    exact condition_yields hs hu
  · intro p r ts us u hr _ hc hu
    obtain ⟨rfl, rfl⟩ := hr
    apply Yields.kind hu
    split
    · next h => exact absurd (h ▸ hc) (by nofun)
    · next h => exact absurd (h ▸ hc) (by nofun)
    · next h => exact absurd (h ▸ hc) (by nofun)
    · next h => exact absurd (h ▸ hc) (by nofun)
    · exact .pure hu
  · intro s ts hs
    obtain ⟨t, us, rfl, -⟩ := hs.starts
    exact ⟨t, us, rfl, rfl⟩

/-- The name of an element is read off its spelling; if there is none, a condition has to follow. -/
lemma elementName_yields {element : Option ElementName} {ts us : List Token} {p : Parser}
    (h : ElementName.Spelled element ts)
    (hne : element = none → StartsWith (fun k => k.startsCondition = true) us)
    (hu : p.unread = ts ++ us) : elementName?.Yields p element us := by
  cases h with
  | absent =>
    obtain ⟨t, vs, rfl, ht⟩ := hne rfl
    apply Yields.kind hu
    split
    · next h => exact absurd (h ▸ ht) (by nofun)
    · next h => exact absurd (h ▸ ht) (by nofun)
    · exact .pure hu
  | named ht =>
    apply Yields.kind hu
    rw [ht]
    exact (Yields.advance hu (by rw [ht]; nofun)).bind_pure
  | universal ht =>
    apply Yields.kind hu
    rw [ht]
    exact (Yields.advance hu (by rw [ht]; nofun)).bind_pure

/-- A compound is accepted in front of what starts no further condition. -/
lemma acceptsCompounds : Accepts 0 compound Compound.Spelled Kind.startsCondition := by
  intro p c ts us u h _ hc hu
  apply Yields.enter
  cases h with
  | @intro element conditions es ss he hs hne =>
    rw [List.append_assoc] at hu
    have hstart : element = none →
        StartsWith (fun k => k.startsCondition = true) (ss ++ u :: us) := by
      intro hnone
      cases hs with
      | nil => exact absurd ⟨hnone, rfl⟩ hne
      | cons hs _ => exact (hs.starts.append _).append _
    apply (elementName_yields (p := p.note _) he hstart hu).bind
    intro _ q _ hq
    apply (acceptsConditions q conditions ss us u hs (Nat.zero_le _) hc hq).bind
    intro _ r _ hr
    rw [if_neg hne]
    exact .pure hr

/-- A combinator is read in front of a compound. -/
lemma combinator_yields {c : Combinator} {ts us : List Token} {t : Token} {p : Parser}
    (h : c.Spelled ts) (ht : t.kind.startsSelector = true) (hu : p.unread = ts ++ t :: us) :
    combinator?.Yields p (some c) (t :: us) := by
  apply Yields.enter
  cases h with
  | descendant hw =>
    apply Yields.kind (p := p.note _) hu
    rw [hw]
    apply (Yields.advance (p := p.note _) hu (by rw [hw]; nofun)).bind
    intro _ q _ hq
    apply Yields.kind hq
    rw [if_pos ht]
    exact .pure hq
  | child hg hb =>
    apply Yields.kind (p := p.note _) hu
    rw [hg]
    exact (Yields.advanceBlanks (p := p.note _) (by rw [hg]; nofun) hb
      (Kind.noBlank_of_startsSelector ht) hu).bind_pure
  | sibling hg hb =>
    apply Yields.kind (p := p.note _) hu
    rw [hg]
    exact (Yields.advanceBlanks (p := p.note _) (by rw [hg]; nofun) hb
      (Kind.noBlank_of_startsSelector ht) hu).bind_pure

/-- There is no combinator in front of a token that does not continue the selector. -/
lemma combinator_yields_none {us : List Token} {t : Token} {p : Parser}
    (hc : t.kind.continuesSelector = false) (hu : p.unread = t :: us) :
    combinator?.Yields p none (t :: us) := by
  apply Yields.enter
  apply Yields.kind (p := p.note _) hu
  split
  · next h => exact absurd (h ▸ hc) (by nofun)
  · next h => exact absurd (h ▸ hc) (by nofun)
  · next h => exact absurd (h ▸ hc) (by nofun)
  · exact .pure hu

/-- A further compound moves the window on. -/
lemma joined_advances : Advances joined? :=
  .of_run joined_run

/-- Further compounds are accepted in front of what does not continue the selector. -/
lemma acceptsJoined :
    Accepts 0 (many joined?) (Each (Pair Combinator.Spelled Compound.Spelled))
      Kind.continuesSelector := by
  refine .many Kind.startsCondition joined_advances ?_ ?_ ?_
    fun _ => Kind.startsCondition_of_continuesSelector
  · intro p r ts us u hr hn hc hu
    obtain ⟨x, rfl, hx⟩ := hr
    cases hx with
    | @intro c compound cs ss hcs hss =>
      obtain ⟨t, vs, rfl, ht⟩ := hss.starts
      rw [List.append_assoc] at hu
      apply (combinator_yields hcs ht hu).bind
      intro _ q _ hq
      exact (acceptsCompounds q compound _ us u hss (Nat.zero_le _) hc hq).bind_pure
  · intro p r ts us u hr _ hc hu
    obtain ⟨rfl, rfl⟩ := hr
    apply (combinator_yields_none hc hu).bind
    intro _ _ _ hq
    exact .pure hq
  · intro x ts hx
    cases hx with
    | intro hc _ => exact hc.starts.append _

/-- A selector is accepted in front of what does not continue it. -/
lemma acceptsSelectors : Accepts 0 selector Selector.Spelled Kind.continuesSelector := by
  intro p s ts us u h _ hc hu
  apply Yields.enter
  cases h with
  | @intro first others vs ws hfirst hothers =>
    rw [List.append_assoc] at hu
    have hnext : StartsWith (fun k => k.startsCondition = false) (ws ++ u :: us) := by
      cases hothers with
      | nil => exact ⟨u, us, rfl, Kind.startsCondition_of_continuesSelector hc⟩
      | cons hx _ =>
        cases hx with
        | intro hcs _ => exact ((hcs.starts.append _).append _).append _
    apply (acceptsCompounds.yields (p := p.note _) hfirst (Nat.zero_le _) hnext hu).bind
    intro _ q _ hq
    exact (acceptsJoined q others ws us u hothers (Nat.zero_le _) hc hq).bind_pure

/-! ### Imports -/

/-- A further medium moves the window on. -/
lemma furtherMedium_advances : Advances furtherMedium? :=
  .of_run furtherMedium_run

/-- Further media are accepted in front of what is no blank and no comma. -/
lemma acceptsFurtherMedia :
    Accepts 0 (many furtherMedium?) (Each (AfterComma MediumSpelled))
      (fun k => k.isWhitespace || k = .comma) := by
  refine .many Kind.isWhitespace furtherMedium_advances ?_ ?_ ?_
    fun _ hk => (Bool.or_eq_false_iff.mp hk).1
  · intro p r ts us u hr _ hc hu
    obtain ⟨medium, rfl, hm⟩ := hr
    cases hm with
    | @intro c bs ms hcomma hb hm =>
      cases hm with
      | @intro t cs ht hcs =>
        have hu : p.unread = c :: (bs ++ t :: (cs ++ u :: us)) := by
          simpa only [List.cons_append, List.append_assoc] using hu
        apply Yields.kind hu
        rw [if_pos hcomma]
        have hblank : t.kind.isWhitespace = false := congrArg Kind.isWhitespace ht
        apply (Yields.advanceBlanks (by rw [hcomma]; nofun) hb hblank hu).bind
        intro _ q _ hq
        apply (Yields.ident ht hq).bind
        intro _ r _ hr
        exact (Yields.skipBlanks hcs hc hr).bind_pure
  · intro p r ts us u hr _ hc hu
    obtain ⟨rfl, rfl⟩ := hr
    apply Yields.kind hu
    rw [if_neg (of_decide_eq_false (Bool.or_eq_false_iff.mp hc).2)]
    exact .pure hu
  · intro medium ts hm
    cases hm with
    | intro hcomma _ _ => exact ⟨_, _, rfl, congrArg Kind.isWhitespace hcomma⟩

/-- Media are read off their spelling in front of a `;`. -/
lemma media_yields {names : List String} {ms us : List Token} {s : Token} {p : Parser}
    (h : MediaSpelled names ms) (hs : s.kind = .semicolon) (hu : p.unread = ms ++ s :: us) :
    media.Yields p names (s :: us) := by
  cases h with
  | absent =>
    apply Yields.kind hu
    rw [hs]
    exact .pure hu
  | named h =>
    cases h with
    | @intro first others _ vs hfirst hothers =>
      cases hfirst with
      | @intro t bs ht hb =>
        have hu : p.unread = t :: (bs ++ (vs ++ s :: us)) := by
          simpa only [List.cons_append, List.append_assoc] using hu
        have hblank : StartsWith Kind.NoBlank (vs ++ s :: us) := by
          cases hothers with
          | nil => exact ⟨s, us, rfl, congrArg Kind.isWhitespace hs⟩
          | cons hm _ =>
            cases hm with
            | intro hcomma => exact ⟨_, _, rfl, congrArg Kind.isWhitespace hcomma⟩
        apply Yields.kind hu
        rw [ht]
        apply (Yields.advanceBlanks_behind (by rw [ht]; nofun) hb hu).bind
        intro _ q _ hq
        rw [dropBlanks_of_startsWith hblank] at hq
        have hc : (s.kind.isWhitespace || decide (s.kind = .comma)) = false := by
          rw [hs]
          rfl
        exact (acceptsFurtherMedia q others vs us s hothers (Nat.zero_le _) hc hq).bind_pure

/-- The uri of an import is read off its token and left there. -/
lemma importUri_yields {uri : String} {t : Token} {us : List Token} {p : Parser}
    (h : UriSpelled uri t) (hu : p.unread = t :: us) : importUri.Yields p uri (t :: us) := by
  apply Yields.kind hu
  cases h with
  | string h | url h =>
    rw [h]
    exact .pure hu

/-- An import is read off its spelling, with the blanks behind it. -/
lemma importRule_yields {i : Import} {ts us : List Token} {p : Parser} (h : i.Spelled ts)
    (hu : p.unread = ts ++ us) : importRule.Yields p i (dropBlanks us) := by
  cases h with
  | @intro uri names i t s bs cs ms ds hi hb ht hc hm hs hd =>
    have hu : p.unread = i :: (bs ++ t :: (cs ++ (ms ++ s :: (ds ++ us)))) := by
      simpa only [List.cons_append, List.append_assoc] using hu
    apply Yields.enter
    apply (Yields.expect (p := p.note _) hi nofun hu).bind
    intro _ q _ hq
    have htblank : t.kind.isWhitespace = false := by
      cases ht with
      | string h | url h => exact congrArg Kind.isWhitespace h
    apply (Yields.skipBlanks hb htblank hq).bind
    intro _ r _ hr
    apply (importUri_yields ht hr).bind
    intro _ v _ hv
    -- the media may be missing, so the blanks end at the first of them or at the semicolon
    have hmblank : StartsWith Kind.NoBlank (ms ++ s :: (ds ++ us)) := by
      cases hm with
      | absent => exact ⟨s, _, rfl, congrArg Kind.isWhitespace hs⟩
      | named h =>
        cases h with
        | intro hfirst _ =>
          cases hfirst with
          | intro ht _ => exact ⟨_, _, rfl, congrArg Kind.isWhitespace ht⟩
    apply (Yields.advanceBlanks_behind ht.inner.ne_eof hc hv).bind
    intro _ w _ hw
    rw [dropBlanks_of_startsWith hmblank] at hw
    apply (media_yields hm hs hw).bind
    intro _ x _ hx
    apply (Yields.expect hs nofun hx).bind
    intro _ y _ hy
    exact (Yields.skipBlanks_behind hd hy).bind_pure

/-! ### Blocks -/

/-- What may stand behind a declaration of a block. -/
def EndsDeclaration (k : Kind) : Prop :=
  k ∈ [.semicolon, .rcurly, .eof]

/-- What ends a declaration is no blank. -/
lemma EndsDeclaration.noBlank {k : Kind} (h : EndsDeclaration k) : k.NoBlank := by
  cases k <;> first | rfl | simp [EndsDeclaration] at h

/-- An item of a block moves the window on. -/
lemma blockItem_advances : Advances blockItem? :=
  .of_run blockItem_run

/-- Semicolons of a block are passed over. -/
lemma semicolons_yield {ss us vs : List Token} {ds : List Declaration} {p : Parser}
    (h : Semicolons ss) (hus : StartsWith Kind.NoBlank us) (hu : p.unread = ss ++ us)
    (hnext : ∀ ts q, p.Reads ts q → q.unread = us → (manySome blockItem?).Yields q ds vs) :
    (manySome blockItem?).Yields p ds vs := by
  induction h generalizing p with
  | nil => exact hnext [] p (.refl p) hu
  | @cons s bs ss hs hb hss ih =>
    have hstart : StartsWith Kind.NoBlank (ss ++ us) := by
      cases hss with
      | nil => exact hus
      | cons hs => exact ⟨_, _, rfl, congrArg Kind.isWhitespace hs⟩
    have hu : p.unread = s :: (bs ++ (ss ++ us)) := by
      simpa only [List.cons_append, List.append_assoc] using hu
    have hitem : blockItem?.Yields p (some none) (ss ++ us) := by
      apply Yields.kind hu
      rw [hs, ← dropBlanks_of_startsWith hstart]
      exact (Yields.advanceBlanks_behind (by rw [hs]; nofun) hb hu).bind_pure
    refine hitem.manySome_cons blockItem_advances ?_
    intro ts q hr hq
    exact ih hq fun ts' q' hr' hq' => hnext (ts ++ ts') q' (hr.trans hr') hq'

/-- A declaration of a block is kept, with any semicolons in front of it. -/
lemma declaration_item_yields {d : Declaration} {ds : List Declaration} {ss ts us vs : List Token}
    {p : Parser} (hss : Semicolons ss) (hd : d.Spelled ts) (hdepth : d.value.depth ≤ p.levels)
    (hus : StartsWith EndsDeclaration us) (hu : p.unread = ss ++ (ts ++ us))
    (hnext : ∀ ts q, p.Reads ts q → q.unread = us → (manySome blockItem?).Yields q ds vs) :
    (manySome blockItem?).Yields p (d :: ds) vs := by
  obtain ⟨t, ts', rfl, ht⟩ : StartsWith (fun k => ∃ name, k = .ident name) ts := by
    cases hd with
    | intro ht => exact ⟨_, _, rfl, _, ht⟩
  obtain ⟨name, ht⟩ := ht
  obtain ⟨u, us, rfl, hue⟩ := hus
  refine semicolons_yield hss ⟨t, _, rfl, congrArg Kind.isWhitespace ht⟩ hu ?_
  intro ts₁ q hr hq
  -- the semicolons are items of their own, so this one starts at the name
  have hitem : blockItem?.Yields q (some (some d)) (u :: us) := by
    apply Yields.kind hq
    rw [ht]
    have hdecl : declarationItem.Yields q (some d) (u :: us) := by
      apply Yields.kind hq
      rw [ht]
      apply Yields.enter
      apply Yields.orResync
      exact property_yields (p := q.note _) hd (hr.levels.symm ▸ hdepth) (continuedBy_of_mem hue) hq
    apply hdecl.bind
    intro _ r _ hr
    exact (Yields.skipBlanks blanks_nil hue.noBlank hr).bind_pure
  refine hitem.manySome_cons blockItem_advances ?_
  intro ts₂ r hr' hu'
  exact hnext (ts₁ ++ ts₂) r (hr.trans hr') hu'

/-- Semicolons end the declaration in front of them. -/
lemma semicolons_start {ss : List Token} (h : Semicolons ss) (hne : ss ≠ []) :
    StartsWith EndsDeclaration ss := by
  cases h with
  | nil => exact absurd rfl hne
  | cons hs => exact ⟨_, _, rfl, hs ▸ List.mem_cons_self⟩

/-- Semicolons or the brace behind them end the declaration in front. -/
lemma semicolons_end {ss : List Token} {r : Token} (h : Semicolons ss) (hr : r.kind = .rcurly)
    (us : List Token) :
    StartsWith EndsDeclaration (ss ++ r :: us) := by
  cases h with
  | nil => exact ⟨r, us, rfl, hr ▸ List.mem_cons_of_mem _ List.mem_cons_self⟩
  | cons hs => exact ⟨_, _, rfl, hs ▸ List.mem_cons_self⟩

/-- What follows a declaration in its block ends it. -/
lemma further_declarations_start {ds : List Declaration} {ts vs us : List Token} {r : Token}
    (h : Each AfterSemicolons ds ts) (hv : Semicolons vs) (hr : r.kind = .rcurly) :
    StartsWith EndsDeclaration (ts ++ (vs ++ r :: us)) := by
  cases h with
  | nil => exact semicolons_end hv hr us
  | cons hd _ =>
    cases hd with
    | intro hss hne _ => exact (((semicolons_start hss hne).append _).append _).append _

/-- Further declarations are read off their spelling up to the brace of the block. -/
lemma further_declarations_yield {ds : List Declaration} {ts vs us : List Token} {r : Token}
    {p : Parser} (h : Each AfterSemicolons ds ts) (hv : Semicolons vs) (hr : r.kind = .rcurly)
    (hdepth : ∀ d ∈ ds, d.value.depth ≤ p.levels) (hu : p.unread = ts ++ (vs ++ r :: us)) :
    (manySome blockItem?).Yields p ds (r :: us) := by
  induction h generalizing p with
  | nil =>
    refine semicolons_yield hv ⟨r, us, rfl, congrArg Kind.isWhitespace hr⟩ hu ?_
    intro _ q _ hq
    apply Yields.manySome_nil
    apply Yields.kind hq
    rw [hr]
    exact .pure hq
  | @cons d ds ws ts hd hds ih =>
    obtain ⟨hdd, hdds⟩ := List.forall_mem_cons.mp hdepth
    cases hd with
    | intro hss _ hts =>
      rw [List.append_assoc, List.append_assoc] at hu
      refine declaration_item_yields hss hts hdd (further_declarations_start hds hv hr) hu ?_
      intro _ q hq hqu
      exact ih (fun d' hd' => hq.levels.symm ▸ hdds d' hd') hqu

/-- Declarations are read off their spelling up to the brace of the block. -/
lemma declarations_yield {ds : List Declaration} {ts us : List Token} {r : Token} {p : Parser}
    (h : DeclarationsSpelled ds ts) (hr : r.kind = .rcurly)
    (hdepth : ∀ d ∈ ds, d.value.depth ≤ p.levels) (hu : p.unread = ts ++ r :: us) :
    (manySome blockItem?).Yields p ds (r :: us) := by
  cases h with
  | nil hss => exact further_declarations_yield .nil hss hr hdepth hu
  | cons hss hd hds hv =>
    obtain ⟨hdd, hdds⟩ := List.forall_mem_cons.mp hdepth
    simp only [List.append_assoc] at hu
    refine declaration_item_yields hss hd hdd (further_declarations_start hds hv hr) hu ?_
    intro _ q hq hqu
    exact further_declarations_yield hds hv hr (fun d' hd' => hq.levels.symm ▸ hdds d' hd') hqu

/-- The declarations of a block do not start with a blank. -/
lemma declarations_start {ds : List Declaration} {ts us : List Token} {r : Token}
    (h : DeclarationsSpelled ds ts) (hr : r.kind = .rcurly) :
    StartsWith Kind.NoBlank (ts ++ r :: us) := by
  cases h with
  | nil hss =>
    obtain ⟨t, vs, h, ht⟩ := semicolons_end hss hr us
    exact ⟨t, vs, h, ht.noBlank⟩
  | cons hss hd _ _ =>
    cases hss with
    | nil =>
      cases hd with
      | intro ht => exact ⟨_, _, rfl, congrArg Kind.isWhitespace ht⟩
    | cons hs => exact ⟨_, _, rfl, congrArg Kind.isWhitespace hs⟩

/-- A block is read off its spelling, with the blanks behind it. -/
lemma block_yields {ds : List Declaration} {ts us : List Token} {p : Parser}
    (h : BlockSpelled ds ts) (hdepth : ∀ d ∈ ds, d.value.depth ≤ p.levels)
    (hu : p.unread = ts ++ us) : block.Yields p ds (dropBlanks us) := by
  cases h with
  | @intro l r bs ts cs hl hb hd hr hc =>
    have hu : p.unread = l :: (bs ++ (ts ++ r :: (cs ++ us))) := by
      simpa only [List.cons_append, List.append_assoc] using hu
    apply (Yields.expect hl nofun hu).bind
    intro _ q hq hqu
    apply (Yields.skipBlanks_behind hb hqu).bind
    intro _ v hv hvu
    rw [dropBlanks_of_startsWith (declarations_start hd hr)] at hvu
    have hl : v.levels = p.levels := (hq.trans hv).levels
    apply (declarations_yield hd hr (fun d hd => hl.symm ▸ hdepth d hd) hvu).bind
    intro _ w _ hw
    exact (Yields.advanceBlanks_behind (by rw [hr]; nofun) hc hw).bind_pure

/-! ### Rulesets -/

/-- A further selector moves the window on. -/
lemma furtherSelector_advances : Advances furtherSelector? :=
  .of_run furtherSelector_run

/-- Further selectors are accepted in front of what continues none and is no comma. -/
lemma acceptsFurtherSelectors :
    Accepts 0 (many furtherSelector?) (Each (AfterComma Selector.Spelled))
      (fun k => k.continuesSelector || k = .comma) := by
  refine .many Kind.continuesSelector furtherSelector_advances ?_ ?_ ?_
    fun _ hk => (Bool.or_eq_false_iff.mp hk).1
  · intro p r ts us u hr _ hc hu
    obtain ⟨s, rfl, hs⟩ := hr
    cases hs with
    | @intro c bs ss hcomma hb hs =>
      obtain ⟨t, vs, rfl, ht⟩ := hs.starts
      have hu : p.unread = c :: (bs ++ t :: (vs ++ u :: us)) := by
        simpa only [List.cons_append, List.append_assoc] using hu
      apply Yields.kind hu
      rw [if_pos hcomma]
      apply (Yields.advanceBlanks (by rw [hcomma]; nofun) hb
        (Kind.noBlank_of_startsSelector ht) hu).bind
      intro _ q _ hq
      apply Yields.kind hq
      rw [if_pos ht]
      exact (acceptsSelectors q s _ us u hs (Nat.zero_le _) hc hq).bind_pure
  · intro p r ts us u hr _ hc hu
    obtain ⟨rfl, rfl⟩ := hr
    apply Yields.kind hu
    rw [if_neg (of_decide_eq_false (Bool.or_eq_false_iff.mp hc).2)]
    exact .pure hu
  · intro s ts hs
    cases hs with
    | intro hcomma _ _ => exact ⟨_, _, rfl, congrArg Kind.continuesSelector hcomma⟩

/-- A ruleset is read off its spelling, with the blanks behind it. -/
lemma ruleset_yields {r : Ruleset} {ts us : List Token} {p : Parser} (h : r.Spelled ts)
    (hdepth : ∀ d ∈ r.declarations, d.value.depth ≤ p.levels) (hu : p.unread = ts ++ us) :
    ruleset.Yields p r (dropBlanks us) := by
  cases h with
  | @intro selectors ds ss bs hs hb =>
    cases hs with
    | @intro first others vs ws hfirst hothers =>
      obtain ⟨l, ls, rfl, hl⟩ : StartsWith (· = .lcurly) bs := by
        cases hb with
        | intro hl => exact ⟨_, _, rfl, hl⟩
      have hu : p.unread = vs ++ (ws ++ l :: (ls ++ us)) := by
        simpa only [List.cons_append, List.append_assoc] using hu
      have hend : (l.kind.continuesSelector || decide (l.kind = .comma)) = false := by
        rw [hl]
        rfl
      -- the first selector ends at a comma or at the block, and neither of them continues it
      have hnext : StartsWith (fun k => k.continuesSelector = false) (ws ++ l :: (ls ++ us)) := by
        cases hothers with
        | nil => exact ⟨l, _, rfl, (Bool.or_eq_false_iff.mp hend).1⟩
        | cons hs _ =>
          cases hs with
          | intro hcomma => exact ⟨_, _, rfl, congrArg Kind.continuesSelector hcomma⟩
      apply Yields.enter
      apply (acceptsSelectors.yields (p := p.note _) hfirst (Nat.zero_le _) hnext hu).bind
      intro _ q hq hqu
      apply (acceptsFurtherSelectors q others ws _ l hothers (Nat.zero_le _) hend hqu).bind
      intro _ x hx hxu
      -- the selectors leave the level as it was
      have hlevels : x.levels = p.levels := (hq.trans hx).levels
      exact (block_yields hb (fun d hd => hlevels.symm ▸ hdepth d hd) hxu).bind_pure

/-! ### Stylesheets -/

/-- A ruleset starts with a token that starts selectors. -/
lemma ruleset_starts {r : Ruleset} {ts : List Token} (h : r.Spelled ts) :
    StartsWith (fun k => k.startsSelector = true) ts := by
  cases h with
  | intro hs _ =>
    cases hs with
    | intro hfirst _ => exact (hfirst.starts.append _).append _

/-- What may stand behind the imports of a stylesheet. -/
def EndsImports (k : Kind) : Prop :=
  k.startsSelector = true ∨ k = .eof

/-- What ends the imports does not stand between rules. -/
lemma EndsImports.isFiller {k : Kind} (h : EndsImports k) : k.isFiller = false := by
  cases k <;> first | rfl | simp [EndsImports, Kind.startsSelector] at h

/-- What ends the imports starts no at-rule. -/
lemma EndsImports.ne {k : Kind} (h : EndsImports k) : k ≠ .atUnknown ∧ k ≠ .atImport := by
  constructor <;> rintro rfl <;> simp [EndsImports, Kind.startsSelector] at h

/-- Rulesets in front of the end of the input end the imports. -/
lemma rulesets_start {rs : List Ruleset} {ts : List Token} {e : Token}
    (h : Each (BeforeFillers Ruleset.Spelled) rs ts) (he : e.kind = .eof) (us : List Token) :
    StartsWith EndsImports (ts ++ e :: us) := by
  cases h with
  | nil => exact ⟨e, us, rfl, .inr he⟩
  | cons hr _ =>
    cases hr with
    | intro hr _ =>
      obtain ⟨t, vs, rfl, ht⟩ := ruleset_starts hr
      exact ⟨t, _, rfl, .inl ht⟩

/-- An item of the rulesets moves the window on. -/
lemma nextRuleset_advances : Advances rulesetItem? :=
  .of_run nextRuleset_run

/-- Rulesets are read off their spelling up to the end of the input. -/
lemma rulesets_yield {rs : List Ruleset} {ts us : List Token} {e : Token} {p : Parser}
    (h : Each (BeforeFillers Ruleset.Spelled) rs ts) (he : e.kind = .eof)
    (hdepth : ∀ r ∈ rs, ∀ d ∈ r.declarations, d.value.depth ≤ p.levels)
    (hu : p.unread = ts ++ e :: us) : (manySome rulesetItem?).Yields p rs (e :: us) := by
  induction h generalizing p with
  | nil =>
    apply Yields.manySome_nil
    apply Yields.kind hu
    rw [if_pos he]
    exact .pure hu
  | @cons r rs ws ts hr hrs ih =>
    obtain ⟨hdr, hdrs⟩ := List.forall_mem_cons.mp hdepth
    cases hr with
    | @intro vs fs hr hf =>
      have hu : p.unread = vs ++ (fs ++ (ts ++ e :: us)) := by
        simpa only [List.append_assoc] using hu
      obtain ⟨t, vs', rfl, ht⟩ := ruleset_starts hr
      have hkind : t.kind ≠ .eof ∧ t.kind ≠ .atUnknown := by
        constructor <;> intro h <;> rw [h] at ht <;> cases ht
      have hitem : rulesetItem?.Yields p (some (some r)) (ts ++ e :: us) := by
        apply Yields.kind hu
        rw [if_neg hkind.1]
        have hrule : rulesetItem.Yields p (some r) (dropBlanks (fs ++ (ts ++ e :: us))) := by
          apply Yields.kind hu
          rw [if_neg hkind.2, if_pos ht]
          exact (ruleset_yields hr hdr hu).orResync .ruleset .block
        apply hrule.bind
        intro _ q _ hq
        -- the block takes the blanks in front of the fillers, and a ruleset or the end stops both
        have hdrop : dropFillers (dropBlanks (fs ++ (ts ++ e :: us))) = ts ++ e :: us := by
          obtain ⟨v, rest, hrest, hv⟩ := rulesets_start hrs he us
          rw [dropFillers_dropBlanks, dropFillers_append hf, hrest, dropFillers_cons hv.isFiller]
        exact (Yields.skipFiller (hq ▸ hdrop)).bind_pure
      refine hitem.manySome_cons nextRuleset_advances ?_
      intro _ q hq hqu
      exact ih (fun r' hr' d hd => hq.levels.symm ▸ hdrs r' hr' d hd) hqu

/-- An item of the imports moves the window on. -/
lemma importItem_advances : Advances importItem? :=
  .of_run importItem_run

/-- An at-rule that is not known is skipped among the imports. -/
lemma importItem_of_atUnknown (h : p.skipFiller.kind = .atUnknown) :
    importItem? p = (.ok (some none), p.skipFiller.skipAtRule) := by
  rw [importItem?, change_bind_apply, kind_bind_apply]
  rw [h]
  rfl

/-- What starts no at-rule ends the imports. -/
lemma importItem_of_other (hu : p.skipFiller.kind ≠ .atUnknown)
    (hi : p.skipFiller.kind ≠ .atImport) : importItem? p = (.ok none, p.skipFiller) := by
  rw [importItem?, change_bind_apply, kind_bind_apply]
  generalize p.skipFiller.kind = k at hu hi ⊢
  split
  · exact absurd rfl hu
  · exact absurd rfl hi
  · rfl

/-- The imports end in front of a ruleset and at the end of the input. -/
lemma importItem_of_end {us : List Token} (hus : StartsWith EndsImports us)
    (hu : dropFillers p.unread = dropFillers us) :
    importItem? p = (.ok none, p.skipFiller) ∧ p.skipFiller.unread = us := by
  obtain ⟨t, us, rfl, ht⟩ := hus
  have hs : p.skipFiller.unread = t :: us := by
    rw [p.skipFiller_unread, hu, dropFillers_cons ht.isFiller]
  have hk : p.skipFiller.kind = t.kind := Parser.kind_of_unread hs rfl
  exact ⟨importItem_of_other (hk ▸ ht.ne.1) (hk ▸ ht.ne.2), hs⟩

/-- Imports are collected with all that stands in front of them and between them. -/
lemma imports_collected {is : List Import} {ts us : List Token} {p : Parser}
    (h : Each (BeforeFillers Import.Spelled) is ts)
    (hu : dropFillers p.unread = dropFillers (ts ++ us)) :
    ∃ q, Collects importItem? p is q ∧ dropFillers q.unread = dropFillers us := by
  induction h generalizing p with
  | nil => exact ⟨p, .refl p, hu⟩
  | @cons i is ws ts hi _ ih =>
    cases hi with
    | @intro vs gs hi hg =>
      obtain ⟨t, vs', hvs, ht⟩ : StartsWith (· = .atImport) vs := by
        cases hi with
        | intro hi => exact ⟨_, _, rfl, hi⟩
      -- each item starts with the fillers that the one in front of it left
      have hfirst : dropFillers p.unread = vs ++ (gs ++ (ts ++ us)) := by
        rw [hu, List.append_assoc, List.append_assoc, hvs]
        exact dropFillers_cons (congrArg Kind.isFiller ht) _
      have hitem : importItem?.Yields p (some (some i)) (dropBlanks (gs ++ (ts ++ us))) := by
        apply (Yields.skipFiller hfirst).bind
        intro _ q _ hq
        apply Yields.kind (hq.trans (by rw [hvs]; rfl))
        rw [ht]
        exact ((importRule_yields hi hq).orResync .importRule .declaration).bind_pure
      obtain ⟨_, q, he, -, hq⟩ := hitem
      obtain ⟨r, hr, hd⟩ := ih (hq ▸ (dropFillers_dropBlanks _).trans (dropFillers_append hg))
      exact ⟨r, .next he hr, hd⟩

/-- Imports are read with all that stands in front of them and between them. -/
lemma imports_yield {is : List Import} {fs ts us : List Token} {p : Parser}
    (h : Each (BeforeFillers Import.Spelled) is ts) (hf : Fillers fs)
    (hus : StartsWith EndsImports us) (hu : p.unread = fs ++ (ts ++ us)) :
    (manySome importItem?).Yields p is us := by
  obtain ⟨q, hq, hd⟩ := imports_collected h (hu ▸ dropFillers_append hf)
  obtain ⟨_, hr⟩ := hq.reads importItem_run
  obtain ⟨_, hr'⟩ := q.skipFiller_reads
  obtain ⟨hend, hs⟩ := importItem_of_end hus hd
  exact ⟨_, q.skipFiller, hq.manySome_of_end importItem_advances hend, hr.trans hr', hs⟩

/-- A string in double quotes is read off its token. -/
lemma doubleQuoted_yields {name : String} {t : Token} {us : List Token} {p : Parser}
    (ht : t.kind = .string name '"') (hu : p.unread = t :: us) :
    doubleQuoted.Yields p name us := by
  apply Yields.kind hu
  rw [ht]
  exact (Yields.advance hu (by rw [ht]; nofun)).bind_pure

/-- A charset rule is read, whatever follows, and nothing where there is none. -/
lemma charset_yields {charset : Option String} {ts us : List Token} {p : Parser}
    (h : CharsetSpelled charset ts) (hus : charset = none → StartsWith (· ≠ .atCharset) us)
    (hu : p.unread = ts ++ us) : charset?.Yields p charset us := by
  apply Yields.enter
  cases h with
  | absent =>
    obtain ⟨t, us, rfl, ht⟩ := hus rfl
    apply Yields.kind (p := p.note _) hu
    rw [if_neg ht]
    exact .pure hu
  | named hc hw ht hs =>
    apply Yields.kind (p := p.note _) hu
    rw [if_pos hc]
    apply Yields.orResync
    apply (Yields.expect (p := p.note _) hc nofun hu).bind
    intro _ q _ hq
    apply Yields.kind hq
    rw [if_pos hw]
    apply (Yields.advance hq (by rw [hw]; nofun)).bind
    intro _ r _ hr
    apply (doubleQuoted_yields ht hr).bind
    intro _ v _ hv
    exact (Yields.expect hs nofun hv).bind_pure

/-- What a stylesheet without a charset rule starts with. -/
def StartsRules (k : Kind) : Prop :=
  k.isFiller = true ∨ k = .atImport ∨ EndsImports k

/-- What starts the rules starts no charset and no at-rule that is not known. -/
lemma StartsRules.ne {k : Kind} (h : StartsRules k) : k ≠ .atUnknown ∧ k ≠ .atCharset := by
  constructor <;> rintro rfl <;>
    simp [StartsRules, EndsImports, Kind.isFiller, Kind.startsSelector] at h

/-- Imports and rulesets start the rules, with or without anything in front of them. -/
lemma rules_start {is : List Import} {fs ts us : List Token}
    (h : Each (BeforeFillers Import.Spelled) is ts) (hf : Fillers fs)
    (hus : StartsWith EndsImports us) : StartsWith StartsRules (fs ++ (ts ++ us)) := by
  cases fs with
  | cons f fs => exact ⟨f, _, rfl, .inl (hf f List.mem_cons_self)⟩
  | nil =>
    cases h with
    | nil =>
      obtain ⟨u, us, rfl, hue⟩ := hus
      exact ⟨u, us, rfl, .inr (.inr hue)⟩
    | cons hi _ =>
      cases hi with
      | intro hi _ =>
        cases hi with
        | intro hi => exact ⟨_, _, rfl, .inr (.inl hi)⟩

/-- A charset and the rules behind it do not start with an at-rule that is not known. -/
lemma charset_start {charset : Option String} {ts us : List Token} (h : CharsetSpelled charset ts)
    (hus : StartsWith StartsRules us) : StartsWith (· ≠ .atUnknown) (ts ++ us) := by
  cases h with
  | absent =>
    obtain ⟨u, us, rfl, hu⟩ := hus
    exact ⟨u, us, rfl, hu.ne.1⟩
  | named hc _ _ _ => exact ⟨_, _, rfl, by rw [hc]; nofun⟩

/-- Nothing leads a stylesheet that does not start with an at-rule that is not known. -/
lemma leading_yields {us : List Token} {p : Parser} (hus : StartsWith (· ≠ .atUnknown) us)
    (hu : p.unread = us) : (many leadingItem?).Yields p [] us := by
  obtain ⟨t, us, rfl, ht⟩ := hus
  apply Yields.many_nil
  apply Yields.kind hu
  rw [if_neg ht]
  exact .pure hu

/-- A stylesheet is read off its spelling up to the end of the input. -/
lemma stylesheet_yields {s : Stylesheet} {ts us : List Token} {e : Token} {p : Parser}
    (h : s.Spelled ts) (he : e.kind = .eof)
    (hdepth : ∀ r ∈ s.rulesets, ∀ d ∈ r.declarations, d.value.depth ≤ p.levels)
    (hu : p.unread = ts ++ e :: us) : stylesheet.Yields p s (e :: us) := by
  cases h with
  | @intro charset imports rulesets cs fs is rs hc hf hi hr =>
    have hu : p.unread = cs ++ (fs ++ (is ++ (rs ++ e :: us))) := by
      simpa only [List.append_assoc] using hu
    have hrules := rules_start hi hf (rulesets_start hr he us)
    apply Yields.enter
    apply (leading_yields (p := p.note _) (charset_start hc hrules) hu).bind
    intro _ q hq hqu
    have hcharset : StartsWith (· ≠ .atCharset) (fs ++ (is ++ (rs ++ e :: us))) := by
      obtain ⟨t, vs, hvs, ht⟩ := hrules
      exact ⟨t, vs, hvs, ht.ne.2⟩
    apply (charset_yields hc (fun _ => hcharset) hqu).bind
    intro _ v hv hvu
    apply (imports_yield hi hf (rulesets_start hr he us) hvu).bind
    intro _ w hw hwu
    have hlevels : w.levels = p.levels := ((hq.trans hv).trans hw).levels
    exact (rulesets_yield hr he (fun r hr d hd => hlevels.symm ▸ hdepth r hr d hd) hwu).bind_pure

end Grammar

/-- The tokens of a list are in front of a parser, and the end of the input is behind them. -/
lemma Parser.unread_of_noEof {ts : List Token} (h : NoEof ts) (config : Config) :
    (ofSource (.tokens ts) config).unread = ts ++ [⟨.eof, .origin⟩] := by
  rw [← Source.unread_nil, ← unread_ofSource_tokens h, List.append_nil]

/-- Exactly the well-formed stylesheets can be spelled, and reading any spelling of one gives it back,
if its functions stand inside each other no deeper than the settings allow. -/
theorem parse_inverts_spelling (s : Stylesheet) :
    (s.WellFormed ↔ ∃ ts, s.Spelled ts) ∧
    ∀ config ts, s.Spelled ts →
      (∀ r ∈ s.rulesets, ∀ d ∈ r.declarations, d.value.depth ≤ config.maxFunctionDepth) →
      (parseSource (.tokens ts) config).result = .ok s := by
  refine ⟨s.wellFormed_iff_spelled, ?_⟩
  intro config ts hs hdepth
  have hu := Parser.unread_of_noEof hs.noEof config
  obtain ⟨_, q, he, -, -⟩ := Grammar.stylesheet_yields hs rfl hdepth
    (p := (Parser.ofSource (.tokens ts) config).note (.reading config.source)) hu
  exact Parser.report_of_ok (m := Grammar.document) he

/-- The tree of `@charset "c";<!--@import u;x .y{p: f(g(q) ),r;}`. -/
def sampleSheet : Stylesheet :=
  { charset := some "c"
    imports := [⟨"u", []⟩]
    rulesets :=
      [{ selectors := [⟨[⟨some (.named "x"), []⟩, ⟨none, [.className "y"]⟩], [.descendant]⟩]
         declarations :=
          [⟨"p", ⟨[.function none "f" [.function none "g" [.value none (.ident "q")] []] [],
            .value none (.ident "r")], [.comma]⟩, false⟩] }] }

/-- The tokens of `@charset "c";<!--@import u;x .y{p: f(g(q) ),r;}`. -/
def sampleTokens : List Token :=
  [.atCharset, .whitespace " ", .string "c" '"', .semicolon, .cdo, .atImport, .url "u", .semicolon,
    .ident "x", .whitespace " ", .dot, .ident "y", .lcurly, .ident "p", .colon, .whitespace " ",
    .function "f", .function "g", .ident "q", .rparen, .whitespace " ", .rparen, .comma, .ident "r",
    .semicolon, .rcurly].map Kind.token

/-- The tokens of the sample spell it. -/
lemma sampleSheet_spelled : sampleSheet.Spelled sampleTokens := by
  have hspace : Blanks [(Kind.whitespace " ").token] := List.forall_mem_singleton.mpr rfl
  have hcdo : Fillers [Kind.cdo.token] := List.forall_mem_singleton.mpr rfl
  have hident : ∀ name, Term.Spelled (.value none (.ident name)) [(Kind.ident name).token] :=
    fun _ => .value .none rfl blanks_nil
  have hinner : Function.Spelled ⟨"g", [.value none (.ident "q")], []⟩ _ :=
    .intro (f := (Kind.function "g").token) (r := Kind.rparen.token) rfl blanks_nil
      (.single (hident "q")) rfl hspace
  have houter : Function.Spelled ⟨"f", [.function none "g" [.value none (.ident "q")] []], []⟩ _ :=
    .intro (f := (Kind.function "f").token) (r := Kind.rparen.token) rfl blanks_nil
      (.single (.function .none hinner)) rfl blanks_nil
  have hdeclaration : Declaration.Spelled ⟨"p", _, false⟩ _ :=
    .intro (t := (Kind.ident "p").token) (c := Kind.colon.token) rfl blanks_nil rfl hspace
      (.cons (.function .none houter) (.comma (t := Kind.comma.token) rfl blanks_nil)
        (.single (hident "r"))) .absent
  have hblock : BlockSpelled _ _ :=
    .intro (l := Kind.lcurly.token) (r := Kind.rcurly.token) rfl blanks_nil
      (.cons .nil hdeclaration .nil (.cons (s := Kind.semicolon.token) rfl blanks_nil .nil)) rfl
      blanks_nil
  have hselector : Selector.Spelled _ _ :=
    .intro (.intro (.named (t := (Kind.ident "x").token) rfl) .nil nofun)
      (.cons (.intro (.descendant (t := (Kind.whitespace " ").token) rfl)
        (.intro .absent (.cons (.className (d := Kind.dot.token) (t := (Kind.ident "y").token)
          rfl rfl) .nil) nofun)) .nil)
  have himport : Import.Spelled ⟨"u", []⟩ _ :=
    .intro (i := Kind.atImport.token) (u := (Kind.url "u").token) (s := Kind.semicolon.token) rfl
      blanks_nil (.url rfl) blanks_nil .absent rfl blanks_nil
  have hruleset : BeforeFillers Ruleset.Spelled ⟨_, _⟩ _ :=
    .intro (.intro (.intro hselector .nil) hblock) fillers_nil
  exact .intro (.named (c := Kind.atCharset.token) (w := (Kind.whitespace " ").token)
      (t := (Kind.string "c" '"').token) (s := Kind.semicolon.token) rfl rfl rfl rfl)
    hcdo (.cons (.intro himport fillers_nil) .nil) (.cons hruleset .nil)

/-- Two functions stand inside each other in the sample, which is read back under the limit two. -/
theorem parse_inverts_spelling_sample :
    sampleSheet.WellFormed ∧
    (parseSource (.tokens sampleTokens) { maxFunctionDepth := 2 }).result = .ok sampleSheet := by
  obtain ⟨hspelled, hparse⟩ := parse_inverts_spelling sampleSheet
  refine ⟨hspelled.mpr ⟨_, sampleSheet_spelled⟩, hparse _ _ sampleSheet_spelled ?_⟩
  decide

end CssSyntax
