import CssSyntax.Proofs.Stylesheet

/-!
# Completeness

The productions read whatever the grammar spells. A production that starts on the tokens of a tree
gives this tree and stops behind them, provided that the token there does not continue it
(`Accepts`). Together with what the runs say this settles which declarations are kept
(`Grammar.declaration_kept_iff`).

A production does not look at what follows it any further than that. So a declaration is kept also in
front of a token that belongs neither to it nor behind it.
-/

namespace CssSyntax

/-- Blanks are dropped up to a token that is none. -/
lemma Blanks.dropWhile {bs us : List Token} {t : Token} (hb : Blanks bs)
    (ht : t.kind.isWhitespace = false) :
    (bs ++ t :: us).dropWhile (·.kind.isWhitespace) = t :: us := by
  rw [List.dropWhile_append_of_pos hb]
  exact List.dropWhile_cons_of_neg (Bool.eq_false_iff.mp ht)

namespace ParseM

variable {α β : Type} {p : Parser}

/-- An action gives a result on a parser and stops in front of the given tokens. -/
def Yields (m : ParseM α) (p : Parser) (a : α) (us : List Token) : Prop :=
  ∃ ts q, m p = (.ok a, q) ∧ p.Reads ts q ∧ q.unread = us

namespace Yields

variable {m : ParseM α} {f : α → ParseM β} {a : α} {b : β} {t : Token} {us vs : List Token}

/-- A result that is given at once leaves what there is. -/
lemma pure (h : p.unread = us) : (Pure.pure a : ParseM α).Yields p a us :=
  ⟨[], p, rfl, .refl p, h⟩

/-- The second of two actions reads what the first one leaves. -/
lemma bind (hm : m.Yields p a us)
    (hf : ∀ ts q, p.Reads ts q → q.unread = us → (f a).Yields q b vs) :
    (m >>= f).Yields p b vs := by
  obtain ⟨ts, q, he, hr, hu⟩ := hm
  obtain ⟨ts', r, he', hr', hu'⟩ := hf ts q hr hu
  exact ⟨ts ++ ts', r, (bind_apply_ok he f).trans he', hr.trans hr', hu'⟩

/-- An action that only puts the result of another one together. -/
lemma bind_pure {g : α → β} (hm : m.Yields p a us) :
    (m >>= fun a => Pure.pure (g a)).Yields p (g a) us :=
  hm.bind fun _ _ _ hu => pure hu

/-- An action may go by the kind of the first token that is left. -/
lemma kind {f : Kind → ParseM β} (hu : p.unread = t :: us) (h : (f t.kind).Yields p b vs) :
    (ParseM.kind >>= f).Yields p b vs := by
  obtain rfl := Parser.current_of_unread hu
  exact h

/-- Noting that a production is tried leaves all tokens. -/
lemma enter {production : Production} {f : Unit → ParseM β}
    (h : (f ()).Yields (p.note (.tried production)) b vs) :
    (ParseM.enter production >>= f).Yields p b vs := by
  obtain ⟨ts, q, he, hr, hu⟩ := h
  exact ⟨ts, q, he, hr.note_trans, hu⟩

/-- Moving on leaves all tokens but the first. -/
lemma advance (hu : p.unread = t :: us) (hne : t.kind ≠ .eof) :
    ParseM.advance.Yields p () us := by
  obtain ⟨rfl, ha⟩ := Parser.unread_advance hu hne
  exact ⟨_, _, rfl, .advance_of_ne_eof hne, ha⟩

/-- Skipping blanks leaves what stands behind them. -/
lemma skipBlanks {bs : List Token} (hb : Blanks bs) (ht : t.kind.isWhitespace = false)
    (hu : p.unread = bs ++ t :: us) : ParseM.skipBlanks.Yields p () (t :: us) := by
  obtain ⟨ts, hr, hs⟩ := p.skipWhile_unread Kind.isWhitespace rfl
  refine ⟨ts, p.skipBlanks, rfl, hr, hs.trans ?_⟩
  rw [hu]
  exact hb.dropWhile ht

/-- Moving past a token and the blanks behind it leaves what stands behind these. -/
lemma advanceBlanks {s : Token} {bs : List Token} (hs : s.kind ≠ .eof) (hb : Blanks bs)
    (ht : t.kind.isWhitespace = false) (hu : p.unread = s :: (bs ++ t :: us)) :
    ParseM.advanceBlanks.Yields p () (t :: us) :=
  (advance hu hs).bind fun _ _ _ hq => skipBlanks hb ht hq

/-- An expected token is taken and the others are left. -/
lemma expect {k : Kind} (hk : t.kind = k) (hne : k ≠ .eof) (hu : p.unread = t :: us) :
    (ParseM.expect k).Yields p () us := by
  apply kind hu
  rw [if_pos hk]
  exact advance hu (hk ▸ hne)

/-- An identifier gives its name and the tokens behind it are left. -/
lemma ident {expected name : String} (hk : t.kind = .ident name) (hu : p.unread = t :: us) :
    (ParseM.ident expected).Yields p name us := by
  apply kind hu
  rw [hk]
  apply (advance hu (by rw [hk]; nofun)).bind
  intro _ _ _ hq
  exact pure hq

variable {step : ParseM (Option α)} {as : List α}

/-- A repetition gives nothing where its step gives nothing. -/
lemma many_nil (h : step.Yields p none us) : (ParseM.many step).Yields p [] us := by
  obtain ⟨ts, q, he, hr, hu⟩ := h
  exact ⟨ts, q, many_of_none he, hr, hu⟩

/-- A repetition gives what its step gives, and then what it gives behind that. -/
lemma many_cons (h : step.Yields p (some a) us) (hadv : Advances step)
    (hs : ∀ ts q, p.Reads ts q → q.unread = us → (ParseM.many step).Yields q as vs) :
    (ParseM.many step).Yields p (a :: as) vs := by
  obtain ⟨ts, q, he, hr, hu⟩ := h
  obtain ⟨ts', r, he', hr', hu'⟩ := hs ts q hr hu
  refine ⟨ts ++ ts', r, ?_, hr.trans hr', hu'⟩
  rw [many_of_some he (hadv p a q he), he']
  rfl

end Yields

/-- On parsers with `n` levels left, a production reads all that is spelled as `S` says, and stops
behind it in front of any token that does not continue it. -/
def Accepts (n : Nat) (m : ParseM α) (S : α → List Token → Prop) (continued : Kind → Bool) : Prop :=
  ∀ (p : Parser) (a : α) (ts us : List Token) (u : Token), S a ts → n ≤ p.levels →
    continued u.kind = false → p.unread = ts ++ u :: us → m.Yields p a (u :: us)

end ParseM

/-! ### Where a spelling starts -/

/-- Tokens the first of which is of a kind in `K`. -/
def StartsWith (K : Kind → Prop) (ts : List Token) : Prop :=
  ∃ t us, ts = t :: us ∧ K t.kind

/-- Tokens with others behind them start as before. -/
lemma StartsWith.append {K : Kind → Prop} {ts : List Token} (h : StartsWith K ts)
    (us : List Token) : StartsWith K (ts ++ us) := by
  obtain ⟨t, vs, rfl, hk⟩ := h
  exact ⟨t, vs ++ us, rfl, hk⟩

/-- Tokens start as they do with others behind them, unless there are none. -/
lemma StartsWith.of_append {K : Kind → Prop} {ts us : List Token} (h : StartsWith K (ts ++ us))
    (hne : ts ≠ []) : StartsWith K ts := by
  obtain ⟨t, ts, rfl⟩ := List.exists_cons_of_ne_nil hne
  obtain ⟨_, _, he, hk⟩ := h
  cases he
  exact ⟨t, ts, rfl, hk⟩

/-- What is accepted is read in front of tokens that start with what does not continue it. -/
lemma ParseM.Accepts.yields {α : Type} {n : Nat} {m : ParseM α} {S : α → List Token → Prop}
    {continued : Kind → Bool} {p : Parser} {a : α} {ts us : List Token}
    (h : Accepts n m S continued) (ha : S a ts) (hn : n ≤ p.levels)
    (hus : StartsWith (fun k => continued k = false) us) (hu : p.unread = ts ++ us) :
    m.Yields p a us := by
  obtain ⟨u, us, rfl, hc⟩ := hus
  exact h p a ts us u ha hn hc hu

/-- A repetition reads items one behind the other if none of them continues the one in front of it. -/
lemma ParseM.Accepts.many {α : Type} {n : Nat} {step : ParseM (Option α)}
    {S : α → List Token → Prop} {more : Kind → Bool} (continued : Kind → Bool)
    (hadv : Advances step)
    (hitem : Accepts n step (fun r ts => ∃ a, r = some a ∧ S a ts) continued)
    (hdone : Accepts n step (fun r ts => r = none ∧ ts = []) more)
    (hstart : ∀ a ts, S a ts → StartsWith (fun k => continued k = false) ts)
    (hmore : ∀ k, more k = false → continued k = false) :
    Accepts n (ParseM.many step) (Each S) more := by
  intro p as ts us u h hn hc hu
  induction h generalizing p with
  | nil => exact (hdone p none [] us u ⟨rfl, rfl⟩ hn hc hu).many_nil
  | @cons a as vs ws ha has ih =>
    have hnext : StartsWith (fun k => continued k = false) (ws ++ u :: us) := by
      cases has with
      | nil => exact ⟨u, us, rfl, hmore _ hc⟩
      | cons hb _ => exact ((hstart _ _ hb).append _).append _
    rw [List.append_assoc] at hu
    apply (hitem.yields ⟨a, rfl, ha⟩ hn hnext hu).many_cons hadv
    intro _ q hr hq
    exact ih q (hr.levels ▸ hn) hq

namespace Kind

/-- Tokens that can start a term. -/
def StartsTerm (k : Kind) : Prop :=
  k.startsTerm = true

/-- Tokens that are no blanks. -/
def NoBlank (k : Kind) : Prop :=
  k.isWhitespace = false

/-- A term does not start with a blank. -/
lemma StartsTerm.noBlank {k : Kind} (h : k.StartsTerm) : k.NoBlank := by
  cases k <;> first | rfl | cases h

/-- A condition that asks whether a term starts here is met. -/
lemma StartsTerm.not_bnot {k : Kind} (h : k.StartsTerm) : ¬ (!k.startsTerm) = true := by
  have h : k.startsTerm = true := h
  rw [h]
  nofun

/-- Values start terms. -/
lemma startsTerm_of_ofKind? {k : Kind} {v : Value} (h : Value.ofKind? k = some v) :
    k.StartsTerm := by
  cases k <;> first | rfl | cases h

/-- What continues no value is no blank. -/
lemma noBlank_of_continuesValue {k : Kind} (h : k.continuesValue = false) : k.NoBlank := by
  cases k <;> first | rfl | cases h

end Kind

/-- A sign in front of a term starts a term. -/
lemma Sign.Spelled.starts {sign : Option Sign} {ss ts : List Token} (h : Sign.Spelled sign ss)
    (hts : StartsWith Kind.StartsTerm ts) : StartsWith Kind.StartsTerm (ss ++ ts) := by
  cases h with
  | none => exact hts
  | minus hs => exact ⟨_, _, rfl, congrArg Kind.startsTerm hs⟩
  | plus hs => exact ⟨_, _, rfl, congrArg Kind.startsTerm hs⟩

/-- A function starts a term. -/
lemma Function.Spelled.starts {f : Function} {ts : List Token} (h : f.Spelled ts) :
    StartsWith Kind.StartsTerm ts := by
  cases h with
  | intro hf => exact ⟨_, _, rfl, congrArg Kind.startsTerm hf⟩

/-- A term starts a term. -/
lemma Term.Spelled.starts {t : Term} {ts : List Token} (h : t.Spelled ts) :
    StartsWith Kind.StartsTerm ts := by
  cases h with
  | value hs hv _ => exact hs.starts ⟨_, _, rfl, Kind.startsTerm_of_ofKind? hv⟩
  | function hs hf => exact hs.starts hf.starts

/-- An expression starts with a term. -/
lemma Expression.Spelled.starts {e : Expression} {ts : List Token} (h : e.Spelled ts) :
    StartsWith Kind.StartsTerm ts := by
  cases h with
  | single ht => exact ht.starts
  | cons ht _ _ => exact ht.starts.append _

/-- An operand starts with its operator or, without one, with its term. -/
lemma operand_starts {x : Operator × Term} {ts : List Token}
    (h : Pair Operator.Spelled Term.Spelled x ts) : StartsWith Kind.NoBlank ts := by
  cases h with
  | intro hop ht =>
    cases hop with
    | slash hs _ => exact ⟨_, _, rfl, congrArg Kind.isWhitespace hs⟩
    | comma hs _ => exact ⟨_, _, rfl, congrArg Kind.isWhitespace hs⟩
    | space =>
      obtain ⟨t, us, rfl, hk⟩ := ht.starts
      exact ⟨t, us, rfl, hk.noBlank⟩

/-- What stands behind a term is no blank, be it an operand or the token behind the expression. -/
lemma operands_start {others : List (Operator × Term)} {ts : List Token} {u : Token}
    (h : Each (Pair Operator.Spelled Term.Spelled) others ts)
    (hu : u.kind.continuesValue = false) (us : List Token) :
    StartsWith Kind.NoBlank (ts ++ u :: us) := by
  cases h with
  | nil => exact ⟨u, us, rfl, Kind.noBlank_of_continuesValue hu⟩
  | cons hx _ => exact ((operand_starts hx).append _).append _

/-- An expression is a term with operands behind it. -/
lemma Expression.Spelled.exists_each {terms : List Term} {operators : List Operator}
    {ts : List Token} (h : Expression.Spelled ⟨terms, operators⟩ ts) :
    ∃ t others us vs, terms = t :: others.map Prod.snd ∧ operators = others.map Prod.fst ∧
      ts = us ++ vs ∧ t.Spelled us ∧ Each (Pair Operator.Spelled Term.Spelled) others vs := by
  induction operators generalizing terms ts with
  | nil =>
    cases h with
    | single ht => exact ⟨_, [], ts, [], rfl, rfl, (List.append_nil ts).symm, ht, .nil⟩
  | cons op operators ih =>
    cases h with
    | @cons t _ _ _ ts os _ ht hop he =>
      obtain ⟨t', others, us, vs, rfl, rfl, rfl, ht', ho⟩ := ih he
      refine ⟨t, (op, t') :: others, ts, (os ++ us) ++ vs, rfl, rfl, ?_, ht,
        .cons (.intro hop ht') ho⟩
      rw [List.append_assoc]

/-- Each of several terms is no deeper than all of them. -/
lemma Term.depth_le_of_mem {t : Term} {ts : List Term} (h : t ∈ ts) :
    t.depth ≤ Term.depthList ts := by
  induction h with
  | head => exact Nat.le_max_left _ _
  | tail _ _ ih => exact Nat.le_trans ih (Nat.le_max_right _ _)

namespace Grammar

open ParseM

/-- A sign is read in front of anything that is no sign itself. -/
lemma sign_yields {sign : Option Sign} {ss us : List Token} {t : Token} {p : Parser}
    (h : Sign.Spelled sign ss) (hm : t.kind ≠ .minus) (hp : t.kind ≠ .plus)
    (hu : p.unread = ss ++ t :: us) : sign?.Yields p sign (t :: us) := by
  cases h with
  | none =>
    apply Yields.kind hu
    split
    · next h => exact absurd h hm
    · next h => exact absurd h hp
    · exact .pure hu
  | minus hs =>
    apply Yields.kind hu
    rw [hs]
    exact (Yields.advance hu (by rw [hs]; nofun)).bind_pure
  | plus hs =>
    apply Yields.kind hu
    rw [hs]
    exact (Yields.advance hu (by rw [hs]; nofun)).bind_pure

/-- What the productions accept on parsers with `n` levels left. -/
def AcceptsFunctions (n : Nat) : Prop :=
  Accepts n function (fun f ts => f.Spelled ts ∧ f.arguments.depth < n) Kind.isWhitespace

@[inherit_doc AcceptsFunctions]
def AcceptsTerms (n : Nat) : Prop :=
  Accepts n term (fun t ts => t.Spelled ts ∧ t.depth ≤ n) Kind.isWhitespace

@[inherit_doc AcceptsFunctions]
def AcceptsExpressions (n : Nat) : Prop :=
  Accepts n expression (fun e ts => e.Spelled ts ∧ e.depth ≤ n) Kind.continuesValue

/-- Terms are accepted if functions are. -/
lemma acceptsTerms {n : Nat} (hf : AcceptsFunctions n) : AcceptsTerms n := by
  intro p t ts us u ht hn hc hu
  obtain ⟨ht, hd⟩ := ht
  apply Yields.enter
  cases ht with
  | @value sign v t ss bs hs hv hb =>
    rw [List.append_assoc] at hu
    have hm : t.kind ≠ .minus ∧ t.kind ≠ .plus := by
      constructor <;> intro h <;> rw [h] at hv <;> cases hv
    apply (sign_yields (p := p.note _) hs hm.1 hm.2 hu).bind
    intro _ q _ hq
    apply Yields.kind hq
    split
    · next h =>
      rw [h] at hv
      cases hv
    · rw [hv]
      exact (Yields.advanceBlanks (inner_of_ofKind? hv).ne_eof hb hc hq).bind_pure
  | @function sign name terms operators ss ts hs hts =>
    rw [List.append_assoc] at hu
    obtain ⟨f, fs, rfl, hk⟩ : ∃ f fs, ts = f :: fs ∧ f.kind = .function name := by
      cases hts with
      | intro hf => exact ⟨_, _, rfl, hf⟩
    -- the sign may be missing, so the function must not be taken for one
    have hm : f.kind ≠ .minus ∧ f.kind ≠ .plus := by
      rw [hk]
      exact ⟨nofun, nofun⟩
    apply (sign_yields (p := p.note _) hs hm.1 hm.2 hu).bind
    intro _ q hr hq
    apply Yields.kind hq
    rw [hk]
    have hl : q.levels = p.levels := hr.levels
    exact (hf q _ _ us u ⟨hts, hd⟩ (hl ▸ hn) hc hq).bind_pure

/-- An operator is read off its spelling in front of a term. -/
lemma operator_yields {op : Operator} {os us : List Token} {t : Token} {p : Parser}
    (h : op.Spelled os) (ht : t.kind.StartsTerm) (hu : p.unread = os ++ t :: us) :
    operator?.Yields p (some op) (t :: us) := by
  cases h with
  | slash hs hb =>
    apply Yields.kind hu
    rw [hs]
    exact (Yields.advanceBlanks (by rw [hs]; nofun) hb ht.noBlank hu).bind_pure
  | comma hs hb =>
    apply Yields.kind hu
    rw [hs]
    exact (Yields.advanceBlanks (by rw [hs]; nofun) hb ht.noBlank hu).bind_pure
  | space =>
    apply Yields.kind hu
    have hk : t.kind.startsTerm = true := ht
    split
    · next h =>
      rw [h] at hk
      cases hk
    · next h =>
      rw [h] at hk
      cases hk
    · rw [if_pos hk]
      exact .pure hu

/-- There is no operator in front of a token that does not continue the value. -/
lemma operator_yields_none {us : List Token} {t : Token} {p : Parser}
    (hc : t.kind.continuesValue = false) (hu : p.unread = t :: us) :
    operator?.Yields p none (t :: us) := by
  apply Yields.kind hu
  split
  · next h =>
    rw [h] at hc
    cases hc
  · next h =>
    rw [h] at hc
    cases hc
  · have hk : t.kind.startsTerm = false := by
      revert hc
      cases t.kind <;> first | exact fun _ => rfl | nofun
    rw [hk]
    exact .pure hu

/-- A further term moves the window on. -/
lemma operand_advances : Advances (operand? term) :=
  .of_run (operand_run term_run)

/-- Further terms are accepted if terms are. -/
lemma acceptsOperands {n : Nat} (ht : AcceptsTerms n) :
    Accepts n (many (operand? term))
      (Each fun x ts => Pair Operator.Spelled Term.Spelled x ts ∧ x.2.depth ≤ n)
      Kind.continuesValue := by
  refine .many Kind.isWhitespace operand_advances ?_ ?_ (fun x ts hx => operand_starts hx.1)
    fun _ => Kind.noBlank_of_continuesValue
  · intro p r ts us u hr hn hc hu
    obtain ⟨x, rfl, hx, hd⟩ := hr
    cases hx with
    | @intro op t os ts hop hts =>
      rw [List.append_assoc] at hu
      obtain ⟨w, ws, rfl, hw⟩ := hts.starts
      apply (operator_yields hop hw hu).bind
      intro _ q hr hq
      have hl : q.levels = p.levels := hr.levels
      exact (ht q t _ us u ⟨hts, hd⟩ (hl ▸ hn) hc hq).bind_pure
  · intro p r ts us u hr hn hc hu
    obtain ⟨rfl, rfl⟩ := hr
    apply (operator_yields_none hc hu).bind
    intro _ _ _ hq
    exact .pure hq

/-- Expressions are accepted if terms are. -/
lemma acceptsExpressions {n : Nat} (ht : AcceptsTerms n) : AcceptsExpressions n := by
  intro p e ts us u he hn hc hu
  obtain ⟨terms, operators⟩ := e
  obtain ⟨he, hd⟩ := he
  obtain ⟨t, others, vs, ws, rfl, rfl, rfl, hvs, hws⟩ := he.exists_each
  have hdepth : ∀ t' ∈ t :: others.map Prod.snd, t'.depth ≤ n :=
    fun t' ht' => Nat.le_trans (Term.depth_le_of_mem ht') hd
  obtain ⟨hdt, hdo⟩ := List.forall_mem_cons.mp hdepth
  rw [List.append_assoc] at hu
  apply Yields.enter
  have hfirst : term.Yields (p.note (.tried .expression)) t (ws ++ u :: us) :=
    ht.yields ⟨hvs, hdt⟩ hn (operands_start hws hc us) hu
  apply hfirst.bind
  intro _ q hr hq
  have hl : q.levels = p.levels := hr.levels
  -- the limit holds for every term, so it is passed on to each of the pairs
  have hothers := hws.and fun x hx => hdo x.2 (List.mem_map_of_mem hx)
  exact (acceptsOperands ht q others ws us u hothers (hl ▸ hn) hc hq).bind_pure

/-- An action that is run one level deeper gives the same result and leaves the same tokens. -/
lemma nested_yields {α : Type} {m : ParseM α} {p : Parser} {a : α} {us : List Token}
    (h : ∀ q, q.unread = p.unread → q.config = p.config ∧ q.depth = p.depth + 1 →
      m.Yields q a us) : (nested m).Yields p a us := by
  obtain ⟨ts, q, he, hr, hu⟩ := h { p with depth := p.depth + 1 } rfl ⟨rfl, rfl⟩
  have hd : q.depth = p.depth + 1 := hr.settings.2
  refine ⟨ts, { q with depth := p.depth }, ?_, hr.withDepth p.depth, hu⟩
  simp only [nested, he, hd, Nat.add_sub_cancel]

/-- A function has one level less for its arguments. -/
lemma acceptsFunctions {n : Nat} (he : AcceptsExpressions n) : AcceptsFunctions (n + 1) := by
  intro p f ts us u hf hn hc hu
  obtain ⟨hf, hd⟩ := hf
  have hlevels : n + 1 ≤ p.config.maxFunctionDepth - p.depth := hn
  have hdepth : ¬ p.depth ≥ p.config.maxFunctionDepth := by omega
  cases hf with
  | @intro name arguments t r bs es cs ht hb hes hr hcs =>
    obtain ⟨e, es', rfl, hk⟩ := hes.starts
    have hu : p.unread = t :: (bs ++ e :: (es' ++ r :: (cs ++ u :: us))) := by
      simpa only [List.cons_append, List.append_assoc] using hu
    rw [function_eq]
    apply Yields.enter
    show ((if p.depth ≥ p.config.maxFunctionDepth then tooDeep else nested _) :
      ParseM Function).Yields (p.note (.tried .function)) _ _
    rw [if_neg hdepth]
    apply nested_yields
    intro q hq hset
    -- inside of the parentheses, there is one level less
    have hl : n ≤ q.levels := by
      have hmax : q.config.maxFunctionDepth = p.config.maxFunctionDepth :=
        congrArg Config.maxFunctionDepth hset.1
      have hdeep : q.depth = p.depth + 1 := hset.2
      unfold Parser.levels
      omega
    apply Yields.kind (hq.trans hu)
    rw [ht]
    apply (Yields.advanceBlanks (by rw [ht]; nofun) hb hk.noBlank (hq.trans hu)).bind
    intro _ s hs hsu
    apply Yields.kind hsu
    rw [if_neg hk.not_bnot]
    have hr' : r.kind.continuesValue = false := by
      rw [hr]
      rfl
    apply (he s arguments (e :: es') _ r ⟨hes, Nat.le_of_lt_succ hd⟩ (hs.levels ▸ hl) hr' hsu).bind
    intro _ v _ hv
    apply (Yields.expect hr nofun hv).bind
    intro _ w _ hw
    exact (Yields.skipBlanks hcs hc hw).bind_pure

/-- Functions of every depth are accepted. -/
lemma acceptsFunctions_all (n : Nat) : AcceptsFunctions n := by
  induction n with
  | zero =>
    -- nothing is less than no levels
    intro p f ts us u hf
    exact absurd hf.2 (Nat.not_lt_zero _)
  | succ n ih => exact acceptsFunctions (acceptsExpressions (acceptsTerms ih))

/-- Expressions of every depth are accepted. -/
lemma acceptsExpressions_all (n : Nat) : AcceptsExpressions n :=
  acceptsExpressions (acceptsTerms (acceptsFunctions_all n))

/-! ### Declarations -/

/-- Neither the priority nor the token behind a declaration continues the value. -/
lemma priority_starts {name : String} {value : Expression} {important : Bool} {ps : List Token}
    {u : Token} (h : PrioritySpelled important ps)
    (hc : Declaration.continuedBy ⟨name, value, important⟩ u.kind = false) (us : List Token) :
    StartsWith (fun k => k.continuesValue = false) (ps ++ u :: us) := by
  cases h with
  | absent =>
    have hc : (u.kind.continuesValue || decide (u.kind = .important)) = false := hc
    exact ⟨u, us, rfl, (Bool.or_eq_false_iff.mp hc).1⟩
  | important ht _ => exact ⟨_, _, rfl, congrArg Kind.continuesValue ht⟩

/-- A priority is read off its spelling in front of what does not continue the declaration. -/
lemma priority_yields {name : String} {value : Expression} {important : Bool} {ps us : List Token}
    {u : Token} {p : Parser} (h : PrioritySpelled important ps)
    (hc : Declaration.continuedBy ⟨name, value, important⟩ u.kind = false)
    (hu : p.unread = ps ++ u :: us) : priority.Yields p important (u :: us) := by
  cases h with
  | absent =>
    have hc : (u.kind.continuesValue || decide (u.kind = .important)) = false := hc
    apply Yields.kind hu
    rw [if_neg (of_decide_eq_false (Bool.or_eq_false_iff.mp hc).2)]
    exact .pure hu
  | important ht hb =>
    have hw : u.kind.isWhitespace = false := hc
    apply Yields.kind hu
    rw [if_pos ht]
    exact (Yields.advanceBlanks (by rw [ht]; nofun) hb hw hu).bind_pure

/-- A declaration is read off its spelling in front of what does not continue it. -/
lemma property_yields {d : Declaration} {ts us : List Token} {u : Token} {p : Parser}
    (h : d.Spelled ts) (hd : d.value.depth ≤ p.levels) (hc : d.continuedBy u.kind = false)
    (hu : p.unread = ts ++ u :: us) : property.Yields p d (u :: us) := by
  cases h with
  | @intro name value important t c bs cs vs ps ht hb hcolon hcs hvs hps =>
    obtain ⟨e, es, rfl, hk⟩ := hvs.starts
    have hu : p.unread = t :: (bs ++ c :: (cs ++ e :: (es ++ (ps ++ u :: us)))) := by
      simpa only [List.cons_append, List.append_assoc] using hu
    apply (Yields.ident ht hu).bind
    intro _ q hq hqu
    have hblank : c.kind.isWhitespace = false := by
      rw [hcolon]
      rfl
    apply (Yields.skipBlanks hb hblank hqu).bind
    intro _ r hr hru
    apply (Yields.expect hcolon nofun hru).bind
    intro _ s hs hsu
    apply (Yields.skipBlanks hcs hk.noBlank hsu).bind
    intro _ v hv hvu
    apply Yields.kind hvu
    rw [if_neg hk.not_bnot]
    -- nothing in front of the value opens a function
    have hl : v.levels = p.levels := (((hq.trans hr).trans hs).trans hv).levels
    have hvalue : expression.Yields v value (ps ++ u :: us) :=
      (acceptsExpressions_all v.levels).yields ⟨hvs, hl ▸ hd⟩ (Nat.le_refl _)
        (priority_starts hps hc us) hvu
    apply hvalue.bind
    intro _ x _ hxu
    exact (priority_yields hps hc hxu).bind_pure

/-- A declaration is kept if it is spelled out in front of a token that does not continue it, whatever
this token is. -/
lemma declaration_kept_iff (p : Parser) (d : Declaration) (K : Kind → Prop) :
    (∃ q, declaration p = (.ok (some d), q) ∧ K q.kind) ↔
      ∃ ts t us, p.unread = ts ++ t :: us ∧ d.Spelled ts ∧ d.value.depth ≤ p.levels ∧
        K t.kind ∧ d.continuedBy t.kind = false := by
  constructor
  · intro h
    obtain ⟨q, he, hk⟩ := h
    obtain ⟨ts, hr, -, hts, hd, hc⟩ := (declaration_run p).of_ok he
    obtain ⟨us, hq⟩ := q.unread_eq_cons
    exact ⟨ts, q.current, us, hq ▸ hr.unread, hts, hd, hk, hc⟩
  · intro h
    obtain ⟨ts, t, us, hu, hts, hd, hk, hc⟩ := h
    obtain ⟨_, q, he, -, hq⟩ := property_yields (p := p.note (.tried .declaration)) hts hd hc hu
    obtain ⟨vs, hv⟩ := q.unread_eq_cons
    obtain ⟨rfl, -⟩ := List.cons.inj (hv.symm.trans hq)
    exact ⟨q, orResync_of_ok .declaration .declaration he, hk⟩

/-- What may follow a declaration in a block does not continue it. -/
lemma continuedBy_of_mem {d : Declaration} {k : Kind} (h : k ∈ [.semicolon, .rcurly, .eof]) :
    d.continuedBy k = false := by
  rw [List.mem_cons, List.mem_cons, List.mem_singleton] at h
  obtain rfl | rfl | rfl := h
  · exact ite_self false
  · exact ite_self false
  · exact ite_self false

/-- A declaration is kept and ends in front of a `;`, a `}` or the end of the input exactly if it is
spelled out in front of one of them. But it is kept too, with something left over behind it, if it is
spelled out in front of any other token that does not continue it. -/
theorem declaration_ends_iff (p : Parser) (d : Declaration) :
    ((∃ q, declaration p = (.ok (some d), q) ∧ q.kind ∈ [.semicolon, .rcurly, .eof]) ↔
      ∃ ts t us, p.unread = ts ++ t :: us ∧ d.Spelled ts ∧ d.value.depth ≤ p.levels ∧
        t.kind ∈ [.semicolon, .rcurly, .eof]) ∧
    ((∃ q, declaration p = (.ok (some d), q) ∧ q.kind ∉ [.semicolon, .rcurly, .eof]) ↔
      ∃ ts t us, p.unread = ts ++ t :: us ∧ d.Spelled ts ∧ d.value.depth ≤ p.levels ∧
        t.kind ∉ [.semicolon, .rcurly, .eof] ∧ d.continuedBy t.kind = false) := by
  refine ⟨?_, declaration_kept_iff p d (· ∉ [.semicolon, .rcurly, .eof])⟩
  rw [declaration_kept_iff p d (· ∈ [.semicolon, .rcurly, .eof])]
  constructor
  · intro h
    obtain ⟨ts, t, us, hu, hts, hd, hk, -⟩ := h
    exact ⟨ts, t, us, hu, hts, hd, hk⟩
  · intro h
    obtain ⟨ts, t, us, hu, hts, hd, hk⟩ := h
    exact ⟨ts, t, us, hu, hts, hd, hk, continuedBy_of_mem hk⟩

/-- The kind of token that a declaration `a:b` is kept in front of, if it is kept at all. -/
def keptBefore? (ks : List Kind) : Option Kind :=
  let p : Parser :=
    .ofSource (.tokens ((.ident "a" :: .colon :: .ident "b" :: ks).map (Token.mk · .origin))) {}
  match declaration p with
  | (.ok (some _), q) => some q.kind
  | _ => none

/-- A declaration is kept in front of a stray bracket, a second colon, a value behind its priority and
something that forms no token. -/
theorem declaration_kept_with_leftover :
    keptBefore? [.rbracket] = some .rbracket ∧
    keptBefore? [.colon, .ident "c"] = some .colon ∧
    keptBefore? [.important, .ident "c"] = some (.ident "c") ∧
    keptBefore? [.invalid] = some .invalid := by
  decide +kernel

end Grammar

end CssSyntax
