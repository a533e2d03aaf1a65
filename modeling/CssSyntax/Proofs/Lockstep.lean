import CssSyntax.Proofs.Stylesheet

/-!
# Lockstep

Two parsers read alike as long as the tokens in front of them are alike. `Lockstep A L` says of a
relation `L` between lists of tokens that their first tokens are of kinds that `A` relates, and that
the lists behind them are related too unless these tokens are like the end of the input. An action
respects `L` if on parsers that face related lists it gives the same result or fails on both, and
stops where they face related lists again (`ParseM.Respects`).

The productions inside of selectors and declarations respect every relation that is in lockstep with
regard to `Kind.Alike`. To them it is all the same how blanks are written, which quotes enclose a
string, and which token it is that no selector and no declaration goes on with.
-/

namespace CssSyntax

/-- Kinds that productions inside of selectors and declarations do not tell apart. -/
inductive Kind.Alike : Kind → Kind → Prop where
  | refl (k : Kind) : Alike k k
  | blanks (a b : String) : Alike (.whitespace a) (.whitespace b)
  | quotes (v : String) (a b : Char) : Alike (.string v a) (.string v b)
  | ends {k l : Kind} : k.isInner = false → l.isInner = false → Alike k l

/-- What depends on a kind but does not tell kinds that are alike apart. -/
structure Kind.Uniform {β : Type} (f : Kind → β) : Prop where
  blanks : (fun blanks => f (.whitespace blanks)) = fun _ => f (.whitespace "")
  quotes : (fun v quote => f (.string v quote)) = fun v _ => f (.string v '"')
  semicolon : f .semicolon = f .eof
  lcurly : f .lcurly = f .eof
  rcurly : f .rcurly = f .eof

namespace Kind

/-- What is uniform gives the same for all that end a construct or the input. -/
lemma Uniform.of_not_inner {β : Type} {f : Kind → β} (hf : Uniform f) {k : Kind}
    (h : k.isInner = false) : f k = f .eof := by
  cases k with
  | semicolon => exact hf.semicolon
  | lcurly => exact hf.lcurly
  | rcurly => exact hf.rcurly
  | eof => rfl
  | _ => cases h

/-- Kinds that are alike have the same uniform values. -/
lemma Uniform.eq {β : Type} {f : Kind → β} (hf : Uniform f) (k l : Kind) (h : k.Alike l) :
    f k = f l := by
  cases h with
  | refl => rfl
  | blanks a b => exact (congrFun hf.blanks a).trans (congrFun hf.blanks b).symm
  | quotes v a b =>
    exact (congrFun (congrFun hf.quotes v) a).trans (congrFun (congrFun hf.quotes v) b).symm
  | ends hk hl => rw [hf.of_not_inner hk, hf.of_not_inner hl]

/-- Whether a token is a blank does not depend on which blank it is. -/
lemma uniform_isWhitespace : Uniform isWhitespace :=
  ⟨rfl, rfl, rfl, rfl, rfl⟩

/-- An inner token is not like the end of the input. -/
lemma Inner.not_alike_eof {k : Kind} (h : k.Inner) : ¬ k.Alike .eof := by
  intro ha
  cases ha with
  | refl => cases h
  | ends hk => exact Bool.noConfusion (h.symm.trans hk)

/-- A kind inside of selectors and declarations that holds no blanks and no string is told apart from
all others. -/
lemma Alike.eq_iff {k l m : Kind} (hi : k.Inner) (hw : k.isWhitespace = false)
    (hq : k.quote? = none) (h : l.Alike m) : l = k ↔ m = k := by
  cases h with
  | refl => exact Iff.rfl
  | blanks a b =>
    constructor <;> rintro rfl <;> cases hw
  | quotes v a b =>
    constructor <;> rintro rfl <;> cases hq
  | ends hl hm =>
    constructor <;> rintro rfl
    · exact Bool.noConfusion (hi.symm.trans hl)
    · exact Bool.noConfusion (hi.symm.trans hm)

end Kind

/-- Lists of tokens that are related stay so when their first tokens are read, as long as these are not
like the end of the input. -/
structure Lockstep (A : Kind → Kind → Prop) (L : List Token → List Token → Prop) : Prop where
  alike {t u : Token} {ts us : List Token} : L (t :: ts) (u :: us) → A t.kind u.kind
  behind {t u : Token} {ts us : List Token} :
    L (t :: ts) (u :: us) → ¬ A t.kind .eof → L ts us
  eof : A .eof .eof

/-- Lists in lockstep are so for every wider likeness. -/
lemma Lockstep.mono {A B : Kind → Kind → Prop} {L : List Token → List Token → Prop}
    (h : Lockstep A L) (hab : ∀ k l, A k l → B k l) : Lockstep B L where
  alike hl := hab _ _ (h.alike hl)
  behind hl hn := h.behind hl fun ha => hn (hab _ _ ha)
  eof := hab _ _ h.eof

/-- Equal lists are in lockstep. -/
lemma Lockstep.eq {A : Kind → Kind → Prop} (hA : ∀ k, A k k) : Lockstep A Eq where
  alike h := by
    cases h
    exact hA _
  behind h _ := (List.cons.inj h).2
  eof := hA .eof

namespace Parser

/-- Parsers that face related tokens, equally deep inside of functions. -/
structure Facing (L : List Token → List Token → Prop) (p q : Parser) : Prop where
  unread : L p.unread q.unread
  depth : p.depth = q.depth
  limit : p.config.maxFunctionDepth = q.config.maxFunctionDepth

variable {A : Kind → Kind → Prop} {L L' : List Token → List Token → Prop} {p q p' q' : Parser}

namespace Facing

/-- Records do not matter for whether two parsers face each other. -/
lemma note (h : Facing L p q) (r s : Record) : Facing L (p.note r) (q.note s) :=
  ⟨h.unread, h.depth, h.limit⟩

/-- Parsers that have moved face the tokens that are still unread. -/
lemma of_reads {ts us : List Token} (h : Facing L p q) (hp : p.Reads ts p') (hq : q.Reads us q')
    (hu : L' p'.unread q'.unread) : Facing L' p' q' := by
  refine ⟨hu, ?_, ?_⟩
  · rw [hp.settings.2, hq.settings.2, h.depth]
  · rw [hp.settings.1, hq.settings.1, h.limit]

/-- Parsers that face each other are on tokens that are alike. -/
lemma kind (hL : Lockstep A L) (h : Facing L p q) : A p.kind q.kind := by
  obtain ⟨ts, hp⟩ := p.unread_eq_cons
  obtain ⟨us, hq⟩ := q.unread_eq_cons
  have hu := h.unread
  rw [hp, hq] at hu
  exact hL.alike hu

/-- Parsers that face each other do so behind a move, unless the input may end here. -/
lemma advance (hL : Lockstep A L) (h : Facing L p q) (hne : ¬ A p.kind .eof) :
    Facing L p.advance q.advance := by
  have hp : p.kind ≠ .eof := fun he => hne (he ▸ hL.eof)
  have hq : q.kind ≠ .eof := fun he => hne (he ▸ h.kind hL)
  have rp : p.Reads [p.current] p.advance := .advance_of_ne_eof hp
  have rq : q.Reads [q.current] q.advance := .advance_of_ne_eof hq
  have hu := h.unread
  rw [rp.unread, rq.unread] at hu
  exact h.of_reads rp rq (hL.behind hu hne)

/-- Parsers that move past their tokens face what stands behind these. -/
lemma advance_of {t u : Token} {ts us : List Token} (h : Facing L p q) (hp : p.unread = t :: ts)
    (hq : q.unread = u :: us) (ht : t.kind ≠ .eof) (hu : u.kind ≠ .eof) (hL : L' ts us) :
    Facing L' p.advance q.advance := by
  obtain ⟨rfl, hpa⟩ := unread_advance hp ht
  obtain ⟨rfl, hqa⟩ := unread_advance hq hu
  refine h.of_reads (.advance_of_ne_eof ht) (.advance_of_ne_eof hu) ?_
  rwa [hpa, hqa]

/-- Parsers that skip tokens face what skipping leaves. -/
lemma skipWhile_of {skips : Kind → Bool} {stops : skips .eof = false} (h : Facing L p q)
    (hL : L' (p.unread.dropWhile (skips ·.kind)) (q.unread.dropWhile (skips ·.kind))) :
    Facing L' (p.skipWhile skips stops) (q.skipWhile skips stops) := by
  obtain ⟨_, rp, hp⟩ := p.skipWhile_unread skips stops
  obtain ⟨_, rq, hq⟩ := q.skipWhile_unread skips stops
  refine h.of_reads rp rq ?_
  rwa [hp, hq]

/-- Skipping goes on in lockstep if it does not tell like kinds apart. -/
lemma skipWhile (hL : Lockstep A L) {skips : Kind → Bool} {stops : skips .eof = false}
    (hs : ∀ k l, A k l → skips k = skips l) (h : Facing L p q) :
    Facing L (p.skipWhile skips stops) (q.skipWhile skips stops) := by
  fun_induction Parser.skipWhile skips stops p generalizing q with
  | case1 p hk _ _ ih =>
    have hq : skips q.kind = true := (hs _ _ (h.kind hL)).symm.trans hk
    have hne : ¬ A p.kind .eof := by
      intro ha
      rw [hs _ _ ha, stops] at hk
      cases hk
    have hskip : q.skipWhile skips stops = q.advance.skipWhile skips stops := by
      rw [Parser.skipWhile, dif_pos hq]
    rw [hskip]
    exact ih (h.advance hL hne)
  | case2 p hk =>
    have hq : skips q.kind = false := by
      rw [← hs _ _ (h.kind hL)]
      exact Bool.eq_false_iff.mpr hk
    rw [skipWhile_of_stop hq]
    exact h

end Facing

end Parser

namespace ParseM

open CssSyntax.Parser (Facing)

variable {α β : Type} {A : Kind → Kind → Prop} {L : List Token → List Token → Prop}
  {E R S : Parser → Parser → Prop} {p q : Parser}

/-- Two runs of an action that end alike: both give the same result or both fail. -/
inductive Agrees (E : Parser → Parser → Prop) (m : ParseM α) (p q : Parser)
    (R : Parser → Parser → Prop) : Prop where
  | ok {a : α} {p' q' : Parser} : m p = (.ok a, p') → m q = (.ok a, q') → R p' q' → Agrees E m p q R
  | error {e f : ParseError} {p' q' : Parser} :
    m p = (.error e, p') → m q = (.error f, q') → E p' q' → Agrees E m p q R

namespace Agrees

variable {m : ParseM α} {f : α → ParseM β}

/-- A result that is given at once is the same on both sides. -/
lemma pure {a : α} (h : R p q) : (Pure.pure a : ParseM α).Agrees E p q R :=
  .ok rfl rfl h

/-- Two actions agree one after the other if both of them do. -/
lemma bind (hm : m.Agrees E p q R) (hf : ∀ a p' q', R p' q' → (f a).Agrees E p' q' S) :
    (m >>= f).Agrees E p q S := by
  cases hm with
  | @ok a p' q' hp hq hr =>
    cases hf a p' q' hr with
    | ok hp' hq' hs =>
      exact .ok ((bind_apply_ok hp f).trans hp') ((bind_apply_ok hq f).trans hq') hs
    | error hp' hq' he =>
      exact .error ((bind_apply_ok hp f).trans hp') ((bind_apply_ok hq f).trans hq') he
  | error hp hq he => exact .error (bind_apply_error hp f) (bind_apply_error hq f) he

/-- A choice by the kind of the current token that is the same on both parsers. -/
lemma kind_of_eq {f : Kind → ParseM β} (hq : f q.kind = f p.kind)
    (hk : (f p.kind).Agrees E p q S) : (ParseM.kind >>= f).Agrees E p q S := by
  cases hk with
  | ok hp' hq' hs => exact .ok hp' ((congrFun hq q).trans hq') hs
  | error hp' hq' he => exact .error hp' ((congrFun hq q).trans hq') he

/-- A choice by the kind of the current token that does not tell like kinds apart. -/
lemma kind {f : Kind → ParseM β} (hL : Lockstep A L) (h : Facing L p q)
    (hf : ∀ k l, A k l → f k = f l) (hk : (f p.kind).Agrees E p q S) :
    (ParseM.kind >>= f).Agrees E p q S :=
  kind_of_eq (hf _ _ (h.kind hL)).symm hk

/-- A failure on the current token is one on both sides. -/
lemma unexpected {expected : String} (h : E p q) :
    (ParseM.unexpected expected : ParseM α).Agrees E p q R :=
  .error rfl rfl h

/-- A change is made on both sides. -/
lemma change {g : Parser → Parser} (h : R (g p) (g q)) : (ParseM.change g).Agrees E p q R :=
  .ok rfl rfl h

/-- An action that gives a result on every parser does so in lockstep. -/
lemma of_total (h : m.Agrees E p q R) (ht : m.Total) :
    ∃ a p' q', m p = (.ok a, p') ∧ m q = (.ok a, q') ∧ R p' q' := by
  cases h with
  | ok hp hq hr => exact ⟨_, _, _, hp, hq, hr⟩
  | error hp => exact absurd hp ht.ne_error

end Agrees

/-- An action that goes on in lockstep wherever two parsers face lists that are related. -/
def Respects (L : List Token → List Token → Prop) (m : ParseM α) : Prop :=
  ∀ p q, Facing L p q → m.Agrees (Facing L) p q (Facing L)

/-- An action that goes on in lockstep on tokens of a given kind. -/
def RespectsAt (L : List Token → List Token → Prop) (k : Kind) (m : ParseM α) : Prop :=
  ∀ p q, Facing L p q → p.kind = k → m.Agrees (Facing L) p q (Facing L)

namespace Respects

variable {m : ParseM α} {f : α → ParseM β} {k : Kind}

/-- What is read alike everywhere is read alike on a token of any kind. -/
lemma at_kind (h : m.Respects L) : m.RespectsAt L k :=
  fun p q hf _ => h p q hf

/-- A result that is given at once is read alike. -/
lemma pure (a : α) : (Pure.pure a : ParseM α).Respects L :=
  fun _ _ h => .pure h

/-- Actions that are read alike are so one after the other. -/
lemma bind (hm : m.Respects L) (hf : ∀ a, (f a).Respects L) : (m >>= f).Respects L :=
  fun p q h => (hm p q h).bind fun a p' q' h' => hf a p' q' h'

/-- A result may be changed behind an action that is read alike. -/
lemma bind_pure {g : α → β} (hm : m.Respects L) :
    (m >>= fun a => Pure.pure (g a)).Respects L :=
  hm.bind fun a => .pure (g a)

/-- An action may go by the kind if it does the same for kinds that are alike. -/
lemma kind {f : Kind → ParseM β} (hL : Lockstep A L) (hf : ∀ k l, A k l → f k = f l)
    (h : ∀ k, (f k).RespectsAt L k) : (ParseM.kind >>= f).Respects L :=
  fun p q hpq => .kind hL hpq hf (h p.kind p q hpq rfl)

/-- An action may look at the parser if it does the same on parsers that face each other. -/
lemma window {f : Parser → ParseM β} (hf : ∀ p q, Facing L p q → f p = f q)
    (h : ∀ p, (f p).Respects L) : (ParseM.window >>= f).Respects L := by
  intro p q hpq
  have hq : f q = f p := (hf p q hpq).symm
  cases h p p q hpq with
  | ok hp' hq' hs => exact .ok hp' ((congrFun hq q).trans hq') hs
  | error hp' hq' he => exact .error hp' ((congrFun hq q).trans hq') he

/-- The note that a production is tried does not matter. -/
lemma enter {production : Production} {f : Unit → ParseM β} (h : (f ()).Respects L) :
    (ParseM.enter production >>= f).Respects L := by
  intro p q hpq
  have hn : (ParseM.enter production).Agrees (Facing L) p q (Facing L) := .change (hpq.note _ _)
  exact hn.bind fun _ p' q' h' => h p' q' h'

/-- A failure on the current token is read alike. -/
lemma unexpected (expected : String) : (ParseM.unexpected expected : ParseM α).Respects L :=
  fun _ _ h => .unexpected h

/-- Blanks are skipped alike if both sides know the same tokens as blanks. -/
lemma skipBlanks (hL : Lockstep A L) (hA : ∀ k l, A k l → k.isWhitespace = l.isWhitespace) :
    ParseM.skipBlanks.Respects L :=
  fun _ _ h => .change (h.skipWhile hL hA)

/-- A repetition is read alike if its step is and moves on. -/
lemma many {step : ParseM (Option α)} (hadv : Advances step) (h : step.Respects L) :
    (ParseM.many step).Respects L := by
  intro p q hpq
  induction hn : p.ahead using Nat.strongRecOn generalizing p q with
  | ind n ih =>
    cases h p q hpq with
    | error hp hq he => exact .error (many_of_error hp) (many_of_error hq) he
    | @ok r p' q' hp hq hr =>
      cases r with
      | none => exact .ok (many_of_none hp) (many_of_none hq) hr
      | some a =>
        have hlt := hadv p a p' hp
        have mp := many_of_some hp hlt
        have mq := many_of_some hq (hadv q a q' hq)
        cases ih p'.ahead (hn ▸ hlt) p' q' hr rfl with
        | ok hp' hq' hs =>
          rw [hp'] at mp
          rw [hq'] at mq
          exact .ok mp mq hs
        | error hp' hq' he =>
          rw [hp'] at mp
          rw [hq'] at mq
          exact .error mp mq he

/-- A repetition that leaves results out is read alike if its step is and moves on. -/
lemma manySome {step : ParseM (Option (Option α))} (hadv : Advances step) (h : step.Respects L) :
    (ParseM.manySome step).Respects L := by
  rw [ParseM.manySome, ← bind_pure_comp]
  exact (many hadv h).bind_pure

end Respects

namespace RespectsAt

variable {k : Kind} {f : Unit → ParseM β}

/-- Moving on is read alike, unless the input may end here. -/
lemma advance (hL : Lockstep A L) (hk : ¬ A k .eof) : ParseM.advance.RespectsAt L k := by
  intro p q h he
  exact .change (h.advance hL (he ▸ hk))

/-- What follows an action on a token of some kind may be read alike everywhere. -/
lemma bind {m : ParseM α} {f : α → ParseM β} (hm : m.RespectsAt L k)
    (hf : ∀ a, (f a).Respects L) : (m >>= f).RespectsAt L k :=
  fun p q h he => (hm p q h he).bind fun a p' q' h' => hf a p' q' h'

/-- A result may be changed behind an action that is read alike on a token of some kind. -/
lemma bind_pure {m : ParseM α} {g : α → β} (hm : m.RespectsAt L k) :
    (m >>= fun a => Pure.pure (g a)).RespectsAt L k :=
  hm.bind fun a => .pure (g a)

/-- Moving past blanks is read alike, unless the input may end here. -/
lemma advanceBlanks (hL : Lockstep A L) (hA : ∀ k l, A k l → k.isWhitespace = l.isWhitespace)
    (hk : ¬ A k .eof) : ParseM.advanceBlanks.RespectsAt L k :=
  (advance hL hk).bind fun _ => .skipBlanks hL hA

end RespectsAt

namespace Respects

/-- Moving past a token of a kind that is told apart from all others. -/
lemma expect {k : Kind} (hL : Lockstep A L) (hk : ∀ l m, A l m → (l = k ↔ m = k)) (hne : k ≠ .eof) :
    (ParseM.expect k).Respects L := by
  apply Respects.kind hL
  · intro l m h
    simp only [hk l m h]
  · intro l
    split
    · next h =>
      apply RespectsAt.advance hL
      intro ha
      exact hne ((hk l .eof ha).mp h).symm
    · exact (unexpected _).at_kind

end Respects

/-! ### Repetitions that run side by side -/

/-- The steps of a repetition from one parser to another, with the results that are not left out. -/
inductive Collects (step : ParseM (Option (Option α))) : Parser → List α → Parser → Prop where
  | refl (p : Parser) : Collects step p [] p
  | next {p q s : Parser} {r : Option α} {as : List α} :
    step p = (.ok (some r), q) → Collects step q as s → Collects step p (r.toList ++ as) s

namespace Collects

variable {step : ParseM (Option (Option α))} {as : List α}

/-- A repetition puts what it has collected on its way in front of what comes then. -/
lemma manySome_eq {bs : List α} {s : Parser} (h : Collects step p as q) (hadv : Advances step)
    (hq : manySome step q = (.ok bs, s)) : manySome step p = (.ok (as ++ bs), s) := by
  induction h with
  | refl => exact hq
  | next he _ ih =>
    rw [List.append_assoc]
    exact manySome_of_some hadv he (ih hq)

/-- A repetition that ends behind what it has collected has no other results. -/
lemma manySome_of_end {s : Parser} (h : Collects step p as q) (hadv : Advances step)
    (hend : step q = (.ok none, s)) : manySome step p = (.ok as, s) := by
  have he := h.manySome_eq hadv (manySome_of_none hend)
  rwa [List.append_nil] at he

/-- What is collected up to a parser and from there on is collected as a whole. -/
lemma trans {bs : List α} {s : Parser} (h : Collects step p as q) (hq : Collects step q bs s) :
    Collects step p (as ++ bs) s := by
  induction h with
  | refl => exact hq
  | next he _ ih =>
    rw [List.append_assoc]
    exact .next he (ih hq)

/-- What is collected is read. -/
lemma reads {K : Kind → Prop} {Q : Parser → List Token → Option (Option α) → Parser → Prop}
    (h : Collects step p as q) (hs : ∀ p, step.Run K p (Q p)) : ∃ ts, p.Reads ts q := by
  induction h with
  | refl p => exact ⟨[], .refl p⟩
  | next he _ ih =>
    obtain ⟨ts, hr, -⟩ := (hs _).of_ok he
    obtain ⟨us, hr'⟩ := ih
    exact ⟨ts ++ us, hr.trans hr'⟩

/-- Two repetitions whose steps give the same results, as long as they are not done, collect the same
up to there. -/
lemma lockstep {f g : ParseM (Option (Option α))} {D : Parser → Parser → Prop} (hadv : Advances f)
    (hstep : ∀ p q, R p q → D p q ∨
      ∃ r p' q', f p = (.ok (some r), p') ∧ g q = (.ok (some r), q') ∧ R p' q')
    (h : R p q) : ∃ as p' q', Collects f p as p' ∧ Collects g q as q' ∧ D p' q' := by
  induction hn : p.ahead using Nat.strongRecOn generalizing p q with
  | ind n ih =>
    rcases hstep p q h with hd | ⟨r, p', q', hf, hg, hr⟩
    · exact ⟨[], p, q, .refl p, .refl q, hd⟩
    · obtain ⟨as, p'', q'', hp, hq, hd⟩ := ih p'.ahead (hn ▸ hadv p r p' hf) hr rfl
      exact ⟨r.toList ++ as, p'', q'', .next hf hp, .next hg hq, hd⟩

end Collects

/-- A repetition agrees on two parsers if its steps do, up to where there are no more results. -/
lemma Agrees.manySome {step : ParseM (Option (Option α))} {D : Parser → Parser → Prop}
    (hadv : Advances step)
    (hstep : ∀ p q, R p q → D p q ∨
      ∃ r p' q', step p = (.ok (some r), p') ∧ step q = (.ok (some r), q') ∧ R p' q')
    (hend : ∀ p q, D p q → ∃ p' q', ParseM.manySome step p = (.ok [], p') ∧
      ParseM.manySome step q = (.ok [], q') ∧ S p' q')
    (h : R p q) : (ParseM.manySome step).Agrees E p q S := by
  obtain ⟨as, p', q', hp, hq, hd⟩ := Collects.lockstep hadv hstep h
  obtain ⟨p'', q'', hp', hq', hs⟩ := hend p' q' hd
  exact .ok (hp.manySome_eq hadv hp') (hq.manySome_eq hadv hq') hs

/-- A repetition agrees on two parsers if it does behind the same results. -/
lemma Agrees.behind {step : ParseM (Option (Option α))} {as : List α} {p' q' : Parser}
    (hadv : Advances step) (ht : step.Total) (hp : Collects step p as p')
    (hq : Collects step q as q') (h : (ParseM.manySome step).Agrees E p' q' S) :
    (ParseM.manySome step).Agrees E p q S := by
  obtain ⟨bs, p'', q'', hp', hq', hs⟩ := h.of_total ht.manySome
  exact .ok (hp.manySome_eq hadv hp') (hq.manySome_eq hadv hq') hs

end ParseM

namespace Grammar

open ParseM

/-! ### Productions inside of selectors and declarations -/

section Inner

variable {L : List Token → List Token → Prop} (hL : Lockstep Kind.Alike L)

include hL

/-- Blanks are skipped alike. -/
lemma skipBlanks_respects : skipBlanks.Respects L :=
  .skipBlanks hL Kind.uniform_isWhitespace.eq

/-- Both sides move past an inner token. -/
lemma advance_respects {k : Kind} (hk : k.isInner = true) : advance.RespectsAt L k :=
  .advance hL (Kind.Inner.not_alike_eof hk)

/-- Both sides move past an inner token and the blanks behind it. -/
lemma advanceBlanks_respects {k : Kind} (hk : k.isInner = true) :
    advanceBlanks.RespectsAt L k :=
  .advanceBlanks hL Kind.uniform_isWhitespace.eq (Kind.Inner.not_alike_eof hk)

/-- An action that goes by the kind uniformly agrees if it does so for the kind on one side. -/
lemma kind_agrees {β : Type} {f : Kind → ParseM β} {p q : Parser} {E R : Parser → Parser → Prop}
    (hf : Kind.Uniform f) (h : p.Facing L q) (hk : (f p.kind).Agrees E p q R) :
    (kind >>= f).Agrees E p q R :=
  .kind hL h hf.eq hk

/-- An action that goes by the kind uniformly is read alike if it is so for every kind. -/
lemma kind_respects {β : Type} {f : Kind → ParseM β} (hf : Kind.Uniform f)
    (h : ∀ k, (f k).RespectsAt L k) :
    (kind >>= f).Respects L :=
  .kind hL hf.eq h

/-- An expected token is read alike if it is an inner one, no blank and no string. -/
lemma expect_respects {k : Kind} (hi : k.isInner = true) (hw : k.isWhitespace = false)
    (hq : k.quote? = none) : (expect k).Respects L :=
  .expect hL (fun _ _ h => h.eq_iff hi hw hq) (Kind.Inner.ne_eof hi)

/-- An identifier is read alike. -/
lemma ident_respects (expected : String) : (ident expected).Respects L := by
  refine kind_respects hL ⟨rfl, rfl, rfl, rfl, rfl⟩ fun k => ?_
  split
  · exact (advance_respects hL rfl).bind_pure
  · exact (Respects.unexpected _).at_kind

/-- A class is read alike. -/
lemma classSelector_respects : classSelector.Respects L := by
  apply Respects.enter
  apply (expect_respects hL rfl rfl rfl).bind
  intro _
  exact (ident_respects hL _).bind_pure

/-- The operator of a condition is looked at, and can then be moved past. -/
lemma attributeOperator_agrees {p q : Parser} (h : p.Facing L q) :
    attributeOperator.Agrees (Parser.Facing L) p q
      fun p' q' => p'.Facing L q' ∧ p'.kind.Inner := by
  refine kind_agrees hL ⟨rfl, rfl, rfl, rfl, rfl⟩ h ?_
  split
  · next hk => exact .pure ⟨h, .of_eq hk rfl⟩
  · next hk => exact .pure ⟨h, .of_eq hk rfl⟩
  · next hk => exact .pure ⟨h, .of_eq hk rfl⟩
  · exact .unexpected h

/-- The value of a condition is the same on both sides, which stay in front of it. -/
lemma attributeValue_agrees {p q : Parser} (h : p.Facing L q) :
    attributeValue.Agrees (Parser.Facing L) p q
      fun p' q' => p'.Facing L q' ∧ p'.kind.Inner := by
  refine kind_agrees hL ⟨rfl, rfl, rfl, rfl, rfl⟩ h ?_
  split
  · next hk => exact .pure ⟨h, .of_eq hk rfl⟩
  · next hk => exact .pure ⟨h, .of_eq hk rfl⟩
  · exact .unexpected h

/-- An attribute condition is read alike. -/
lemma attributeSelector_respects : attributeSelector.Respects L := by
  apply Respects.enter
  apply (expect_respects hL rfl rfl rfl).bind
  intro _
  apply (skipBlanks_respects hL).bind
  intro _
  refine kind_respects hL ⟨rfl, rfl, rfl, rfl, rfl⟩ fun k => ?_
  split
  · next hk => exact (advance_respects hL (Kind.Inner.of_eq hk rfl)).bind_pure
  · apply Respects.at_kind
    apply (ident_respects hL _).bind
    intro name
    apply (skipBlanks_respects hL).bind
    intro _
    refine kind_respects hL ⟨rfl, rfl, rfl, rfl, rfl⟩ fun k => ?_
    split
    · next hk => exact (advance_respects hL (Kind.Inner.of_eq hk rfl)).bind_pure
    · intro p q h _
      apply (attributeOperator_agrees hL h).bind
      rintro operator p q ⟨h, hi⟩
      apply (advanceBlanks_respects hL hi p q h rfl).bind
      intro _ p q h
      apply (attributeValue_agrees hL h).bind
      rintro value p q ⟨h, hi⟩
      apply (advanceBlanks_respects hL hi p q h rfl).bind
      intro _ p q h
      exact (expect_respects hL rfl rfl rfl).bind_pure p q h

/-- The argument of a pseudo class is read alike. -/
lemma pseudoArgument_respects : pseudoArgument.Respects L := by
  refine kind_respects hL ⟨rfl, rfl, rfl, rfl, rfl⟩ fun k => ?_
  split
  · exact (Respects.pure _).at_kind
  · exact (advanceBlanks_respects hL rfl).bind_pure
  · exact (Respects.unexpected _).at_kind

/-- A pseudo class is read alike. -/
lemma pseudoSelector_respects : pseudoSelector.Respects L := by
  apply Respects.enter
  apply (expect_respects hL rfl rfl rfl).bind
  intro _
  refine kind_respects hL ⟨rfl, rfl, rfl, rfl, rfl⟩ fun k => ?_
  split
  · exact (advance_respects hL rfl).bind_pure
  · apply (advanceBlanks_respects hL rfl).bind
    intro _
    apply (pseudoArgument_respects hL).bind
    intro value
    exact (expect_respects hL rfl rfl rfl).bind_pure
  · exact (Respects.unexpected _).at_kind

/-- The name of an element is read alike. -/
lemma elementName_respects : elementName?.Respects L := by
  refine kind_respects hL ⟨rfl, rfl, rfl, rfl, rfl⟩ fun k => ?_
  split
  · exact (advance_respects hL rfl).bind_pure
  · exact (advance_respects hL rfl).bind_pure
  · exact (Respects.pure _).at_kind

/-- A condition is read alike. -/
lemma condition_respects : condition?.Respects L := by
  refine kind_respects hL ⟨rfl, rfl, rfl, rfl, rfl⟩ fun k => ?_
  split
  · exact (advance_respects hL rfl).bind_pure
  · exact (classSelector_respects hL).bind_pure.at_kind
  · exact (attributeSelector_respects hL).bind_pure.at_kind
  · exact (pseudoSelector_respects hL).bind_pure.at_kind
  · exact (Respects.pure _).at_kind

/-- A compound is read alike. -/
lemma compound_respects : compound.Respects L := by
  apply Respects.enter
  apply (elementName_respects hL).bind
  intro element
  apply (Respects.many (.of_run condition_run) (condition_respects hL)).bind
  intro conditions
  split
  · exact .unexpected _
  · exact .pure _

omit hL in
/-- Looking at the next token and returning keeps both parsers where they were. -/
lemma pushBack_agrees {p q : Parser} (h : p.Facing L q) (hp : p.kind ≠ .eof) (hq : q.kind ≠ .eof) :
    pushBack.Agrees (Parser.Facing L) p.advance q.advance (Parser.Facing L) := by
  obtain ⟨_, _, _, hbp, -, -⟩ := Parser.pushBack_advance hp
  obtain ⟨_, _, _, hbq, -, -⟩ := Parser.pushBack_advance hq
  have rp := Parser.Reads.lookAhead hp hbp
  have rq := Parser.Reads.lookAhead hq hbq
  refine .ok (pushBack_apply_ok hbp) (pushBack_apply_ok hbq) (h.of_reads rp rq ?_)
  have hu := h.unread
  rw [rp.unread, rq.unread] at hu
  exact hu

/-- A combinator is read alike, also if blanks turn out to be none. -/
lemma combinator_respects : combinator?.Respects L := by
  apply Respects.enter
  refine kind_respects hL ⟨rfl, rfl, rfl, rfl, rfl⟩ fun k => ?_
  split
  · intro p q h hk
    have hi : p.kind.Inner := .of_eq hk rfl
    have hq : q.kind ≠ .eof := fun he => hi.not_alike_eof (he ▸ h.kind hL)
    have ha := h.advance hL hi.not_alike_eof
    apply Agrees.bind (R := fun p' q' => p' = p.advance ∧ q' = q.advance) (.change ⟨rfl, rfl⟩)
    rintro _ _ _ ⟨rfl, rfl⟩
    refine kind_agrees hL ⟨rfl, rfl, rfl, rfl, rfl⟩ ha ?_
    split
    · exact .pure ha
    · exact (pushBack_agrees h hi.ne_eof hq).bind fun _ _ _ h' => .pure h'
  · exact (advanceBlanks_respects hL rfl).bind_pure
  · exact (advanceBlanks_respects hL rfl).bind_pure
  · exact (Respects.pure _).at_kind

/-- A further compound is read alike. -/
lemma joined_respects : joined?.Respects L := by
  apply (combinator_respects hL).bind
  intro combinator
  cases combinator with
  | none => exact .pure none
  | some c => exact (compound_respects hL).bind_pure

/-- A selector is read alike. -/
lemma selector_respects : selector.Respects L := by
  apply Respects.enter
  apply (compound_respects hL).bind
  intro first
  exact (Respects.many (.of_run joined_run) (joined_respects hL)).bind_pure

/-- A further selector is read alike. -/
lemma furtherSelector_respects : furtherSelector?.Respects L := by
  refine kind_respects hL ⟨rfl, rfl, rfl, rfl, rfl⟩ fun k => ?_
  split
  · next hk =>
    apply (advanceBlanks_respects hL (Kind.Inner.of_eq hk rfl)).bind
    intro _
    refine kind_respects hL ⟨rfl, rfl, rfl, rfl, rfl⟩ fun k => ?_
    split
    · exact (selector_respects hL).bind_pure.at_kind
    · exact (Respects.unexpected _).at_kind
  · exact (Respects.pure _).at_kind

/-- All further selectors are read alike. -/
lemma furtherSelectors_respects : (many furtherSelector?).Respects L :=
  .many (.of_run furtherSelector_run) (furtherSelector_respects hL)

/-- A sign is read alike. -/
lemma sign_respects : sign?.Respects L := by
  refine kind_respects hL ⟨rfl, rfl, rfl, rfl, rfl⟩ fun k => ?_
  split
  · exact (advance_respects hL rfl).bind_pure
  · exact (advance_respects hL rfl).bind_pure
  · exact (Respects.pure _).at_kind

/-- A term is read alike if functions are. -/
lemma termWith_respects {function : ParseM Function} (hf : function.Respects L) :
    (termWith function).Respects L := by
  apply Respects.enter
  apply (sign_respects hL).bind
  intro sign
  refine kind_respects hL ⟨rfl, rfl, rfl, rfl, rfl⟩ fun k => ?_
  split
  · exact hf.bind_pure.at_kind
  · split
    · next v hv => exact (advanceBlanks_respects hL (inner_of_ofKind? hv)).bind_pure
    · exact (Respects.unexpected _).at_kind

/-- An operator is read alike. -/
lemma operator_respects : operator?.Respects L := by
  refine kind_respects hL ⟨rfl, rfl, rfl, rfl, rfl⟩ fun k => ?_
  split
  · exact (advanceBlanks_respects hL rfl).bind_pure
  · exact (advanceBlanks_respects hL rfl).bind_pure
  · exact (Respects.pure _).at_kind

/-- A further term is read alike if terms are. -/
lemma operand_respects {term : ParseM Term} (ht : term.Respects L) :
    (operand? term).Respects L := by
  apply (operator_respects hL).bind
  intro operator
  cases operator with
  | none => exact .pure none
  | some op => exact ht.bind_pure

/-- An expression is read alike if terms are. -/
lemma expressionWith_respects {term : ParseM Term} (ht : term.Respects L)
    (hadv : Advances (operand? term)) : (expressionWith term).Respects L := by
  apply Respects.enter
  apply ht.bind
  intro first
  exact (Respects.many hadv (operand_respects hL ht)).bind_pure

omit hL in
/-- A function is too deep on both sides or on none. -/
lemma tooDeep_respects {α : Type} : (tooDeep : ParseM α).Respects L :=
  fun _ _ h => .error rfl rfl h

omit hL in
/-- What is read alike is so one level deeper. -/
lemma nested_respects {α : Type} {m : ParseM α} (hm : m.Respects L) : (nested m).Respects L := by
  intro p q h
  have hd : Parser.Facing L { p with depth := p.depth + 1 } { q with depth := q.depth + 1 } :=
    ⟨h.unread, congrArg (· + 1) h.depth, h.limit⟩
  cases hm _ _ hd with
  | ok hp hq hr =>
    refine .ok (a := _) (nested_apply hp) (nested_apply hq) ?_
    exact ⟨hr.unread, congrArg (· - 1) hr.depth, hr.limit⟩
  | error hp hq hr =>
    refine .error (nested_apply hp) (nested_apply hq) ?_
    exact ⟨hr.unread, congrArg (· - 1) hr.depth, hr.limit⟩

/-- A function is read alike if its arguments are. -/
lemma functionWith_respects {arguments : ParseM Expression} (ha : arguments.Respects L) :
    (functionWith arguments).Respects L := by
  apply Respects.enter
  apply Respects.window
  · intro p q h
    rw [h.depth, h.limit]
  · intro p
    split
    · exact tooDeep_respects
    · apply nested_respects
      refine kind_respects hL ⟨rfl, rfl, rfl, rfl, rfl⟩ fun k => ?_
      split
      · apply (advanceBlanks_respects hL rfl).bind
        intro _
        refine kind_respects hL ⟨rfl, rfl, rfl, rfl, rfl⟩ fun k => ?_
        apply Respects.at_kind
        split
        · exact .unexpected _
        · apply ha.bind
          intro e
          apply (expect_respects hL rfl rfl rfl).bind
          intro _
          exact (skipBlanks_respects hL).bind_pure
      · exact (Respects.unexpected _).at_kind

/-- A function is read alike, however many levels are left. -/
lemma functionWithin_respects (levels : Nat) : (functionWithin levels).Respects L := by
  induction levels with
  | zero => exact functionWith_respects hL tooDeep_respects
  | succ levels ih =>
    apply functionWith_respects hL
    apply expressionWith_respects hL (termWith_respects hL ih)
    exact .of_run (operand_run (termWith_run (functionWithin_run levels)))

/-- A function is read alike. -/
lemma function_respects : function.Respects L := by
  apply Respects.window
  · intro p q h
    rw [h.depth, h.limit]
  · exact fun p => functionWithin_respects hL _

/-- An expression is read alike. -/
lemma expression_respects : expression.Respects L :=
  expressionWith_respects hL (termWith_respects hL (function_respects hL))
    (.of_run (operand_run term_run))

/-- A priority is read alike. -/
lemma priority_respects : priority.Respects L := by
  refine kind_respects hL ⟨rfl, rfl, rfl, rfl, rfl⟩ fun k => ?_
  split
  · next hk => exact (advanceBlanks_respects hL (Kind.Inner.of_eq hk rfl)).bind_pure
  · exact (Respects.pure _).at_kind

/-- A declaration is read alike. -/
lemma property_respects : property.Respects L := by
  apply (ident_respects hL _).bind
  intro name
  apply (skipBlanks_respects hL).bind
  intro _
  apply (expect_respects hL rfl rfl rfl).bind
  intro _
  apply (skipBlanks_respects hL).bind
  intro _
  refine kind_respects hL ⟨rfl, rfl, rfl, rfl, rfl⟩ fun k => ?_
  apply Respects.at_kind
  split
  · exact .unexpected _
  · apply (expression_respects hL).bind
    intro value
    exact (priority_respects hL).bind_pure

end Inner

end Grammar

end CssSyntax
