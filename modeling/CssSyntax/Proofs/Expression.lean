import CssSyntax.Proofs.Run
import CssSyntax.Grammar.Declaration
import CssSyntax.Tree.Content

/-!
# Runs of expressions and declarations

What the productions for values read: the tokens that spell their result and nothing else. A
production stops in front of the first token that cannot continue what it has read, and no function
in its result stands deeper than the levels that are left (`Parser.levels`).
-/

namespace CssSyntax

namespace Kind

/-- Whether a token continues the value in front of it. -/
def continuesValue : Kind → Bool
  | slash | comma | whitespace _ => true
  | k => k.startsTerm

end Kind

/-- How many functions may still be entered. -/
def Parser.levels (p : Parser) : Nat :=
  p.config.maxFunctionDepth - p.depth

/-- Reading leaves as many levels for functions as there were. -/
lemma Parser.Reads.levels {p q : Parser} {ts : List Token} (h : p.Reads ts q) :
    q.levels = p.levels := by
  unfold Parser.levels
  rw [h.settings.1, h.settings.2]

/-! ### Spelled values -/

/-- Items that are spelled one way are spelled another way if each of them is. -/
lemma Each.imp {α : Type} {S T : α → List Token → Prop} {as : List α} {ts : List Token}
    (h : Each S as ts) (hst : ∀ a ts, S a ts → T a ts) : Each T as ts := by
  induction h with
  | nil => exact .nil
  | cons ha _ ih => exact .cons (hst _ _ ha) ih

/-- What follows from the spelling of an item holds of all items. -/
lemma Each.forall_mem {α : Type} {S : α → List Token → Prop} {P : α → Prop} {as : List α}
    {ts : List Token} (h : Each S as ts) (hp : ∀ a ts, S a ts → P a) : ∀ a ∈ as, P a := by
  induction h with
  | nil => nofun
  | cons ha _ ih =>
    intro b hb
    cases hb with
    | head => exact hp _ _ ha
    | tail _ hb => exact ih b hb

/-- What holds of all items can be added to the spelling of each. -/
lemma Each.and {α : Type} {S : α → List Token → Prop} {P : α → Prop} {as : List α}
    {ts : List Token} (h : Each S as ts) (hp : ∀ a ∈ as, P a) :
    Each (fun a ts => S a ts ∧ P a) as ts := by
  induction h with
  | nil => exact .nil
  | cons ha _ ih =>
    obtain ⟨hpa, hpas⟩ := List.forall_mem_cons.mp hp
    exact .cons ⟨ha, hpa⟩ (ih hpas)

/-- A function takes a token. -/
lemma Function.Spelled.ne_nil {f : Function} {ts : List Token} (h : f.Spelled ts) : ts ≠ [] := by
  cases h
  exact List.cons_ne_nil _ _

/-- A term takes a token. -/
lemma Term.Spelled.ne_nil {t : Term} {ts : List Token} (h : t.Spelled ts) : ts ≠ [] := by
  cases h with
  | value => exact List.append_ne_nil_of_right_ne_nil _ (List.cons_ne_nil _ _)
  | function _ hf => exact List.append_ne_nil_of_right_ne_nil _ hf.ne_nil

/-- A sign in front of a function makes it a term. -/
lemma Function.Spelled.toTerm {f : Function} {sign : Option Sign} {ss ts : List Token}
    (hs : Sign.Spelled sign ss) (hf : f.Spelled ts) : (f.toTerm sign).Spelled (ss ++ ts) :=
  .function hs hf

/-- A term and the operands behind it are an expression. -/
lemma Expression.Spelled.of_each {t : Term} {others : List (Operator × Term)}
    {ts us : List Token} (ht : t.Spelled ts)
    (ho : Each (Pair Operator.Spelled Term.Spelled) others us) :
    Expression.Spelled ⟨t :: others.map Prod.snd, others.map Prod.fst⟩ (ts ++ us) := by
  induction ho generalizing t ts with
  | nil =>
    rw [List.append_nil]
    exact .single ht
  | @cons x xs vs us hx _ ih =>
    cases hx with
    | intro hop ht' =>
      rw [List.append_assoc]
      exact .cons ht hop (ih ht')

/-- Terms are no deeper than the deepest of them. -/
lemma Term.depthList_le {n : Nat} {ts : List Term} (h : ∀ t ∈ ts, t.depth ≤ n) :
    Term.depthList ts ≤ n := by
  induction ts with
  | nil => exact Nat.zero_le n
  | cons t ts ih =>
    rw [Term.depthList]
    exact Nat.max_le.mpr ⟨h t List.mem_cons_self, ih fun u hu => h u (List.mem_cons_of_mem t hu)⟩

/-- The priority and the token behind a declaration tell that it is not continued. -/
def Declaration.continuedBy (d : Declaration) (k : Kind) : Bool :=
  if d.important then k.isWhitespace else k.continuesValue || k = .important

namespace Grammar

open ParseM

/-- What a function read from `p` is like. -/
def FunctionRead (p : Parser) (ts : List Token) (f : Function) (q : Parser) : Prop :=
  f.Spelled ts ∧ f.arguments.depth < p.levels ∧ q.kind.isWhitespace = false

/-- What a term read from `p` is like. -/
def TermRead (p : Parser) (ts : List Token) (t : Term) (q : Parser) : Prop :=
  t.Spelled ts ∧ t.depth ≤ p.levels ∧ q.kind.isWhitespace = false

/-- What an expression read from `p` is like. -/
def ExpressionRead (p : Parser) (ts : List Token) (e : Expression) (q : Parser) : Prop :=
  e.Spelled ts ∧ e.depth ≤ p.levels ∧ q.kind.continuesValue = false

/-- What is read as a sign spells it. -/
lemma sign_run (p : Parser) : sign?.Run Kind.Inner p fun ts s _ => Sign.Spelled s ts := by
  apply Run.kind
  split
  · next h =>
    apply Run.advance_inner (.of_eq h rfl)
    exact Run.pure (.minus h)
  · next h =>
    apply Run.advance_inner (.of_eq h rfl)
    exact Run.pure (.plus h)
  · exact Run.pure .none

/-- Values are inner tokens. -/
lemma inner_of_ofKind? {k : Kind} {v : Value} (h : Value.ofKind? k = some v) : k.Inner := by
  cases k <;> first | rfl | cases h

/-- What is read as a term spells it, if that is so of its functions. -/
lemma termWith_run {function : ParseM Function}
    (hf : ∀ p, function.Run Kind.Inner p (FunctionRead p)) (p : Parser) :
    (termWith function).Run Kind.Inner p (TermRead p) := by
  apply Run.enter
  apply (sign_run _).bind
  intro ss sign q hq hs
  have hl : q.levels = p.levels := hq.levels
  apply Run.kind
  split
  · apply (hf q).bind_pure
    intro ts f r _ hts
    obtain ⟨hts, hd, hr⟩ := hts
    refine ⟨hts.toTerm hs, ?_, hr⟩
    rw [hl] at hd
    exact hd
  · split
    · next v hv =>
      apply (Run.advanceBlanks_inner (inner_of_ofKind? hv)).bind_pure
      intro ts _ r _ hts
      obtain ⟨bs, rfl, hb, hr⟩ := hts
      exact ⟨.value hs hv hb, Nat.zero_le _, hr⟩
    · exact Run.unexpected _

/-- What is no operator, no blank and starts no term continues no value. -/
lemma continuesValue_eq_false {k : Kind} (hs : k ≠ .slash) (hc : k ≠ .comma)
    (ht : k.startsTerm = false) (hw : k.isWhitespace = false) : k.continuesValue = false := by
  unfold Kind.continuesValue
  split
  · next h => exact absurd rfl hs
  · next h => exact absurd rfl hc
  · cases hw
  · exact ht

/-- An operator is read with the blanks behind it, and where there is none nothing is read. -/
lemma operator_run (p : Parser) :
    operator?.Run Kind.Inner p fun ts r q =>
      match r with
      | some op => op.Spelled ts
      | none => ts = [] ∧ q = p ∧ (p.kind.isWhitespace = false → p.kind.continuesValue = false) := by
  apply Run.kind
  split
  · next h =>
    apply (Run.advanceBlanks_inner (.of_eq h rfl)).bind_pure
    intro ts _ q _ hts
    obtain ⟨bs, rfl, hb, -⟩ := hts
    exact .slash h hb
  · next h =>
    apply (Run.advanceBlanks_inner (.of_eq h rfl)).bind_pure
    intro ts _ q _ hts
    obtain ⟨bs, rfl, hb, -⟩ := hts
    exact .comma h hb
  · next hs hc =>
    cases ht : p.kind.startsTerm with
    | true => exact Run.pure .space
    | false => exact Run.pure ⟨rfl, rfl, continuesValue_eq_false hs hc ht⟩

/-- A further term is read with its operator, and where there is none the value is complete. -/
lemma operand_run {term : ParseM Term} (ht : ∀ p, term.Run Kind.Inner p (TermRead p))
    (p : Parser) :
    (operand? term).Run Kind.Inner p (Step
      (fun ts x q => Pair Operator.Spelled Term.Spelled x ts ∧ x.2.depth ≤ p.levels ∧
        q.kind.isWhitespace = false)
      (fun ts q =>
        ts = [] ∧ q = p ∧ (p.kind.isWhitespace = false → p.kind.continuesValue = false))) := by
  apply (operator_run p).bind
  intro os r q hq hop
  cases r with
  | none =>
    obtain ⟨rfl, rfl, hw⟩ := hop
    exact Run.pure ⟨rfl, rfl, hw⟩
  | some op =>
    apply (ht q).bind_pure
    intro ts t r _ hts
    obtain ⟨hts, hd, hr⟩ := hts
    refine ⟨List.append_ne_nil_of_right_ne_nil _ hts.ne_nil, .intro hop hts, ?_, hr⟩
    rw [hq.levels] at hd
    exact hd

/-- What is read as an expression spells it, if that is so of its terms. -/
lemma expressionWith_run {term : ParseM Term} (ht : ∀ p, term.Run Kind.Inner p (TermRead p))
    (p : Parser) : (expressionWith term).Run Kind.Inner p (ExpressionRead p) := by
  apply Run.enter
  apply (ht _).bind
  intro ts first q hq hfirst
  obtain ⟨hfirst, hd, hw⟩ := hfirst
  have hl : q.levels = p.levels := hq.levels
  -- between two terms the window is never on a blank
  refine (Run.many (J := fun r => r.kind.isWhitespace = false ∧ r.levels = p.levels)
    (I := fun x us => Pair Operator.Spelled Term.Spelled x us ∧ x.2.depth ≤ p.levels)
    (E := fun us r => us = [] ∧ r.kind.continuesValue = false) ?_ q ⟨hw, hl⟩).bind_pure ?_
  · intro r hr
    obtain ⟨hw, hl⟩ := hr
    apply (operand_run ht r).imp
    intro us x s hs h
    cases x with
    | none =>
      obtain ⟨rfl, rfl, hc⟩ := h
      exact ⟨rfl, hc hw⟩
    | some x =>
      obtain ⟨hne, hx, hd, hw⟩ := h
      exact ⟨hne, ⟨hx, hl ▸ hd⟩, hw, hs.levels.trans hl⟩
  · intro us others r _ hus
    obtain ⟨vs, _, rfl, hvs, rfl, hc⟩ := hus
    rw [List.append_nil]
    refine ⟨.of_each hfirst (hvs.imp fun _ _ h => h.1), ?_, hc⟩
    apply Term.depthList_le
    intro t htm
    cases htm with
    | head => exact hd
    | tail _ htm =>
      obtain ⟨x, hx, rfl⟩ := List.mem_map.mp htm
      exact hvs.forall_mem (P := fun x => x.2.depth ≤ p.levels) (fun _ _ h => h.2) x hx

/-- A function that is too deep reads nothing and points at its name. -/
lemma tooDeep_run {α : Type} {Q : List Token → α → Parser → Prop} (p : Parser) :
    tooDeep.Run Kind.Inner p Q :=
  .error rfl (.refl p) nofun (.nestingTooDeep p)

/-- An action that is run one level deeper comes back to the level it started on. -/
lemma nested_apply {α : Type} {m : ParseM α} {p q : Parser} {r : Except ParseError α}
    (h : m { p with depth := p.depth + 1 } = (r, q)) :
    nested m p = (r, { q with depth := q.depth - 1 }) := by
  simp only [nested, h]

/-- The level that a construct is read on is left behind it, whether it fails or not. -/
lemma nested_run {α : Type} {K : Kind → Prop} {m : ParseM α}
    {Q : List Token → α → Parser → Prop} {p : Parser}
    (h : m.Run K { p with depth := p.depth + 1 } fun ts a q => Q ts a { q with depth := p.depth }) :
    (nested m).Run K p Q := by
  have leave : ∀ {ts q}, Parser.Reads { p with depth := p.depth + 1 } ts q →
      { q with depth := q.depth - 1 } = { q with depth := p.depth } ∧
        p.Reads ts { q with depth := p.depth } := by
    intro ts q hr
    have hd : q.depth = p.depth + 1 := hr.settings.2
    exact ⟨by rw [hd]; rfl, hr.withDepth p.depth⟩
  cases h with
  | @ok ts a q he hr hk hq =>
    obtain ⟨hd, hr'⟩ := leave hr
    refine .ok ?_ hr' hk hq
    rw [nested_apply he, hd]
  | @error ts e q he hr hk hq =>
    obtain ⟨hd, hr'⟩ := leave hr
    refine .error (e := e) ?_ hr' hk ?_
    · rw [nested_apply he, hd]
    · cases hq with
      | unexpectedToken expected => exact .unexpectedToken expected { q with depth := p.depth }
      | nestingTooDeep => exact .nestingTooDeep { q with depth := p.depth }

/-- What is read as a function spells it, if that is so of its arguments. -/
lemma functionWith_run {arguments : ParseM Expression}
    (ha : ∀ p, arguments.Run Kind.Inner p (ExpressionRead p)) (p : Parser) :
    (functionWith arguments).Run Kind.Inner p (FunctionRead p) := by
  apply Run.enter
  apply Run.window
  split
  · exact tooDeep_run _
  · next hdepth =>
    have hlt : p.depth < p.config.maxFunctionDepth := Nat.lt_of_not_le hdepth
    apply nested_run
    apply Run.kind
    split
    · next name h =>
      apply (Run.advanceBlanks_inner (.of_eq h rfl)).bind
      intro bs' _ q hq hbs
      obtain ⟨bs, rfl, hb, -⟩ := hbs
      -- the arguments stay within the levels below this one
      have hl : q.levels = p.config.maxFunctionDepth - (p.depth + 1) := hq.levels
      apply Run.kind
      split
      · exact Run.unexpected _
      · apply (ha q).bind
        intro ts e r _ he
        obtain ⟨hts, hd, -⟩ := he
        apply (Run.expect_inner rfl r).bind
        intro rs _ s _ hrs
        obtain ⟨t, rfl, ht⟩ := hrs
        apply (Run.skipBlanks_inner s).bind_pure
        intro cs _ u _ hcs
        obtain ⟨hc, hw⟩ := hcs
        refine ⟨.intro h hb hts ht hc, ?_, hw⟩
        rw [hl] at hd
        show e.depth < p.config.maxFunctionDepth - p.depth
        omega
    · exact Run.unexpected _

/-- What is read as a function spells it, however many levels are left. -/
lemma functionWithin_run (levels : Nat) (p : Parser) :
    (functionWithin levels).Run Kind.Inner p (FunctionRead p) := by
  induction levels generalizing p with
  | zero => exact functionWith_run (fun q => tooDeep_run q) p
  | succ levels ih => exact functionWith_run (expressionWith_run (termWith_run ih)) p

/-- What is read as a function spells it. -/
lemma function_run (p : Parser) : function.Run Kind.Inner p (FunctionRead p) :=
  Run.window (functionWithin_run _ p)

/-- What is read as a term spells it. -/
lemma term_run (p : Parser) : term.Run Kind.Inner p (TermRead p) :=
  termWith_run function_run p

/-- What is read as an expression spells it. -/
lemma expression_run (p : Parser) : expression.Run Kind.Inner p (ExpressionRead p) :=
  expressionWith_run term_run p

/-! ### Functions inside functions

The productions above count the levels that are left. Read without the count they are the mutual
recursion of the grammar: a function is read by way of an expression, which is read by way of terms,
which are read by way of functions. -/

/-- A term depends on its functions only with the settings and the depth that it starts with. -/
lemma termWith_congr {f g : ParseM Function} {p : Parser}
    (h : ∀ q, q.config = p.config ∧ q.depth = p.depth → f q = g q) :
    termWith f p = termWith g p := by
  apply enter_congr_at
  apply bind_congr_at rfl
  intro sign q hq
  obtain ⟨ts, hr, -, -⟩ := (sign_run _).of_ok hq
  apply kind_congr_at
  cases q.kind with
  | function name => exact bind_congr_at (h q hr.settings) fun _ _ _ => rfl
  | _ => rfl

/-- A further term depends on the term only with the settings and the depth that it starts with. -/
lemma operand_congr {f g : ParseM Term} {p : Parser}
    (h : ∀ q, q.config = p.config ∧ q.depth = p.depth → f q = g q) :
    operand? f p = operand? g p := by
  apply bind_congr_at rfl
  intro op q hq
  obtain ⟨ts, hr, -, -⟩ := (operator_run p).of_ok hq
  cases op with
  | none => rfl
  | some op => exact bind_congr_at (h q hr.settings) fun _ _ _ => rfl

/-- An expression depends on its terms only with the settings and the depth that it starts with. -/
lemma expressionWith_congr {f g : ParseM Term} {p : Parser}
    (hf : ∀ p, f.Run Kind.Inner p (TermRead p))
    (h : ∀ q, q.config = p.config ∧ q.depth = p.depth → f q = g q) :
    expressionWith f p = expressionWith g p := by
  apply enter_congr_at
  apply bind_congr_at (h (p.note _) ⟨rfl, rfl⟩)
  intro first q hq
  obtain ⟨ts, hr, -, -⟩ := (hf _).of_ok hq
  refine bind_congr_at ?_ fun _ _ _ => rfl
  refine many_congr_at (J := fun r => r.config = p.config ∧ r.depth = p.depth) ?_ ?_ q hr.settings
  · intro r hs
    apply operand_congr
    intro u hu
    exact h u ⟨hu.1.trans hs.1, hu.2.trans hs.2⟩
  · intro r x u hs hu
    obtain ⟨us, hr, -, -⟩ := (operand_run hf r).of_ok hu
    exact ⟨hr.settings.1.trans hs.1, hr.settings.2.trans hs.2⟩

/-- An action that is run one level deeper depends on what it does there. -/
lemma nested_congr {α : Type} {m n : ParseM α} {p : Parser}
    (h : ∀ q, q.config = p.config ∧ q.depth = p.depth + 1 → m q = n q) :
    nested m p = nested n p := by
  unfold nested
  rw [h { p with depth := p.depth + 1 } ⟨rfl, rfl⟩]

/-- A function depends on its arguments only one level deeper, and on nothing if there is no such
level. -/
lemma functionWith_congr {f g : ParseM Expression} {p : Parser}
    (h : p.depth < p.config.maxFunctionDepth →
      ∀ q, q.config = p.config ∧ q.depth = p.depth + 1 → f q = g q) :
    functionWith f p = functionWith g p := by
  apply enter_congr_at
  apply window_congr_at
  split
  · rfl
  · next hd =>
    apply nested_congr
    intro q hq
    apply kind_congr_at
    cases hk : q.kind with
    | function name =>
      apply bind_congr_at rfl
      intro _ r hr
      obtain ⟨ts, hr, -, -⟩ := (Run.advanceBlanks_inner (.of_eq hk rfl)).of_ok hr
      apply kind_congr_at
      split
      · rfl
      · refine bind_congr_at (h (Nat.lt_of_not_le hd) r ?_) fun _ _ _ => rfl
        exact ⟨hr.settings.1.trans hq.1, hr.settings.2.trans hq.2⟩
    | _ => rfl

/-- A function is read by way of the expression that its arguments are. -/
lemma function_eq : function = functionWith expression := by
  funext p
  show functionWithin p.levels p = _
  cases hl : p.levels with
  | zero =>
    apply functionWith_congr
    intro hlt
    unfold Parser.levels at hl
    omega
  | succ levels =>
    apply functionWith_congr
    intro hlt q hq
    apply expressionWith_congr (termWith_run (functionWithin_run levels))
    intro r hr
    apply termWith_congr
    intro s hs
    have hs' : s.levels = levels := by
      unfold Parser.levels at hl ⊢
      rw [hs.1, hs.2, hr.1, hr.2, hq.1, hq.2]
      omega
    show functionWithin levels s = functionWithin s.levels s
    rw [hs']

/-- What a declaration read from `p` is like. -/
def DeclarationRead (p : Parser) (ts : List Token) (d : Declaration) (q : Parser) : Prop :=
  d.Spelled ts ∧ d.value.depth ≤ p.levels ∧ d.continuedBy q.kind = false

/-- What is read as a priority spells it, and the declaration is not continued behind it. -/
lemma priority_run {p : Parser} (hp : p.kind.continuesValue = false) :
    priority.Run Kind.Inner p fun ts important q =>
      PrioritySpelled important ts ∧
        (if important then q.kind.isWhitespace else q.kind.continuesValue || q.kind = .important) =
          false := by
  apply Run.kind
  split
  · next h =>
    apply (Run.advanceBlanks_inner (.of_eq h rfl)).bind_pure
    intro ts _ q _ hts
    obtain ⟨bs, rfl, hb, hw⟩ := hts
    exact ⟨.important h hb, hw⟩
  · next h =>
    refine Run.pure ⟨.absent, ?_⟩
    simp only [hp, h, Bool.false_or, decide_false, Bool.false_eq_true, if_false]

/-- What is read as a declaration spells it. -/
lemma property_run (p : Parser) : property.Run Kind.Inner p (DeclarationRead p) := by
  apply (Run.ident_inner _ p).bind
  intro ns name q hq hns
  obtain ⟨t, rfl, ht⟩ := hns
  apply (Run.skipBlanks_inner q).bind
  intro bs _ r hr hbs
  obtain ⟨hb, -⟩ := hbs
  apply (Run.expect_inner rfl r).bind
  intro cs' _ s hs hcs'
  obtain ⟨c, rfl, hc⟩ := hcs'
  apply (Run.skipBlanks_inner s).bind
  intro cs _ u hu hcs
  obtain ⟨hcs, -⟩ := hcs
  have hl : u.levels = p.levels := (((hq.trans hr).trans hs).trans hu).levels
  apply Run.kind
  split
  · exact Run.unexpected _
  · apply (expression_run u).bind
    intro ts e v _ he
    obtain ⟨hts, hd, hv⟩ := he
    apply (priority_run hv).bind_pure
    intro ps important w _ hps
    obtain ⟨hps, hw⟩ := hps
    have hspelled : Declaration.Spelled ⟨name, e, important⟩
        (t :: (bs ++ c :: (cs ++ (ts ++ ps)))) := .intro ht hb hc hcs hts hps
    exact ⟨hspelled, hl ▸ hd, hw⟩

end Grammar

end CssSyntax
