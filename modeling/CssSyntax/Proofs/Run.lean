import CssSyntax.Proofs.Reading
import CssSyntax.ParseM
import CssSyntax.Tree.Spelling

/-!
# Runs of actions

`m.Run K p Q` says what comes of an action `m` on a parser `p`. The window moves past tokens of kinds
in `K` only. If the action gives a result, `Q` holds of the tokens that were read, of the result and
of the parser behind them; if it fails, the cause points at the token that the window stands on.

Every production of the grammar has one lemma of this form. The rules below build it up along the
production, one rule for each way to put an action together.
-/

namespace CssSyntax

namespace Kind

/-- Whether a token can stand inside a selector or a declaration: it neither ends a declaration nor
delimits a block. -/
def isInner : Kind → Bool
  | semicolon | lcurly | rcurly | eof => false
  | _ => true

/-- Tokens that can stand inside a selector or a declaration. -/
def Inner (k : Kind) : Prop :=
  k.isInner = true

/-- What equals an inner kind is one. -/
lemma Inner.of_eq {k l : Kind} (h : k = l) (hl : l.isInner = true) : k.Inner :=
  (congrArg isInner h).trans hl

/-- The end of the input is no inner token. -/
lemma Inner.ne_eof {k : Kind} (h : k.Inner) : k ≠ .eof := by
  rintro rfl
  cases h

/-- Blanks are inner tokens. -/
lemma inner_of_isWhitespace (k : Kind) (h : k.isWhitespace = true) : k.Inner := by
  cases k with
  | whitespace => rfl
  | _ => cases h

/-- All tokens. -/
def Any (_ : Kind) : Prop :=
  True

end Kind

/-- A cause that names the token a parser stands on. -/
inductive ParseError.PointsAt : ParseError → Parser → Prop where
  | unexpectedToken (expected : String) (p : Parser) :
    PointsAt (.unexpectedToken expected ("'" ++ p.current.text ++ "'") p.current.location) p
  | nestingTooDeep (p : Parser) :
    PointsAt (.nestingTooDeep p.config.maxFunctionDepth p.current.location) p

/-- A cause that points at a token can be recovered from. -/
lemma ParseError.PointsAt.isRecoverable {e : ParseError} {p : Parser} (h : e.PointsAt p) :
    e.isRecoverable = true := by
  cases h <;> rfl

namespace ParseM

variable {α β : Type} {K L : Kind → Prop} {p q : Parser}

/-- The result of an action that succeeds is mapped. -/
lemma map_apply_ok {m : ParseM α} {a : α} (f : α → β) (h : m p = (.ok a, q)) :
    (f <$> m) p = (.ok (f a), q) := by
  rw [← bind_pure_comp, bind_apply_ok h]
  rfl

/-- An action that fails gives nothing to map. -/
lemma map_apply_error {m : ParseM α} {e : ParseError} (f : α → β) (h : m p = (.error e, q)) :
    (f <$> m) p = (.error e, q) := by
  rw [← bind_pure_comp, bind_apply_error h]

/-- A change runs what follows on the changed parser. -/
lemma change_bind_apply (g : Parser → Parser) (f : Unit → ParseM β) :
    (change g >>= f) p = f () (g p) :=
  rfl

/-- The current kind is handed to what follows. -/
lemma kind_bind_apply (f : Kind → ParseM β) : (kind >>= f) p = f p.kind p :=
  rfl

/-- A sequence fails in one of its parts. -/
lemma bind_error {m : ParseM α} {f : α → ParseM β} {e : ParseError}
    (h : (m >>= f) p = (.error e, q)) :
    m p = (.error e, q) ∨ ∃ a r, m p = (.ok a, r) ∧ f a r = (.error e, q) := by
  rcases hm : m p with ⟨_ | a, r⟩
  · rw [bind_apply_error hm] at h
    cases h
    exact .inl rfl
  · rw [bind_apply_ok hm] at h
    exact .inr ⟨a, r, rfl, h⟩

/-- What is expected and missing is not moved past. -/
lemma expect_error {k : Kind} {e : ParseError} (h : expect k p = (.error e, q)) : q = p := by
  have h : (if p.kind = k then advance else unexpected ("'" ++ k.text ++ "'")) p =
      (.error e, q) := h
  split at h <;> cases h
  rfl

/-- A token that can be pushed back is. -/
lemma pushBack_apply_ok (h : p.pushBack = .ok q) : pushBack p = (.ok (), q) := by
  unfold pushBack
  rw [h]

/-- What comes of an action on a parser. -/
inductive Run (K : Kind → Prop) (m : ParseM α) (p : Parser)
    (Q : List Token → α → Parser → Prop) : Prop where
  | ok {ts : List Token} {a : α} {q : Parser} :
    m p = (.ok a, q) → p.Reads ts q → (∀ t ∈ ts, K t.kind) → Q ts a q → Run K m p Q
  | error {ts : List Token} {e : ParseError} {q : Parser} :
    m p = (.error e, q) → p.Reads ts q → (∀ t ∈ ts, K t.kind) → e.PointsAt q → Run K m p Q

namespace Run

variable {m : ParseM α} {f : α → ParseM β} {P Q : List Token → α → Parser → Prop}

/-- Success of a run, with what it has read and what holds behind it. -/
lemma of_ok {a : α} (h : m.Run K p Q) (he : m p = (.ok a, q)) :
    ∃ ts, p.Reads ts q ∧ (∀ t ∈ ts, K t.kind) ∧ Q ts a q := by
  cases h with
  | ok he' hr hk hq =>
    rw [he] at he'
    cases he'
    exact ⟨_, hr, hk, hq⟩
  | error he' =>
    rw [he] at he'
    cases he'

/-- Failure of a run, with what it has read and the token that it points at. -/
lemma of_error {e : ParseError} (h : m.Run K p Q) (he : m p = (.error e, q)) :
    ∃ ts, p.Reads ts q ∧ (∀ t ∈ ts, K t.kind) ∧ e.PointsAt q := by
  cases h with
  | ok he' =>
    rw [he] at he'
    cases he'
  | error he' hr hk hp =>
    rw [he] at he'
    cases he'
    exact ⟨_, hr, hk, hp⟩

/-- A run may read more kinds of tokens, and less may hold behind it. -/
lemma mono (h : m.Run K p P) (hK : ∀ k, K k → L k)
    (hQ : ∀ ts a q, p.Reads ts q → P ts a q → Q ts a q) : m.Run L p Q := by
  cases h with
  | ok he hr hk hp => exact .ok he hr (fun t ht => hK _ (hk t ht)) (hQ _ _ _ hr hp)
  | error he hr hk hp => exact .error he hr (fun t ht => hK _ (hk t ht)) hp

/-- What follows from the outcome of a run holds behind it as well. -/
lemma imp (h : m.Run K p P) (hQ : ∀ ts a q, p.Reads ts q → P ts a q → Q ts a q) : m.Run K p Q :=
  h.mono (fun _ hk => hk) hQ

/-- Every run reads tokens of some kind. -/
lemma any (h : m.Run K p Q) : m.Run Kind.Any p Q :=
  h.mono (fun _ _ => trivial) fun _ _ _ _ hq => hq

/-- A run depends on what the action does on this parser only. -/
lemma congr {n : ParseM α} (he : m p = n p) (h : n.Run K p Q) : m.Run K p Q := by
  cases h with
  | ok hn hr hk hq => exact .ok (he.trans hn) hr hk hq
  | error hn hr hk hp => exact .error (he.trans hn) hr hk hp

/-- A run of an action that moves the window first. -/
lemma of_reads {n : ParseM α} {us : List Token} (hp : p.Reads us q) (hk : ∀ t ∈ us, K t.kind)
    (he : m p = n q) (h : n.Run K q fun ts => Q (us ++ ts)) : m.Run K p Q := by
  cases h with
  | ok hn hr hk' hq =>
    refine .ok (he.trans hn) (hp.trans hr) ?_ hq
    exact fun t ht => (List.mem_append.mp ht).elim (hk t) (hk' t)
  | error hn hr hk' hq =>
    refine .error (he.trans hn) (hp.trans hr) ?_ hq
    exact fun t ht => (List.mem_append.mp ht).elim (hk t) (hk' t)

/-- A result that is given at once reads nothing. -/
lemma pure {a : α} (h : Q [] a p) : (Pure.pure a : ParseM α).Run K p Q :=
  .ok rfl (.refl p) nofun h

/-- Runs follow each other, and so do the tokens that they read. -/
lemma bind {Q : List Token → β → Parser → Prop} (hm : m.Run K p P)
    (hf : ∀ ts a q, p.Reads ts q → P ts a q → (f a).Run K q fun us => Q (ts ++ us)) :
    (m >>= f).Run K p Q := by
  cases hm with
  | ok he hr hk hp => exact of_reads hr hk (bind_apply_ok he f) (hf _ _ _ hr hp)
  | error he hr hk hp => exact .error (bind_apply_error he f) hr hk hp

/-- An action that only puts the result of another one together. -/
lemma bind_pure {g : α → β} {Q : List Token → β → Parser → Prop} (hm : m.Run K p P)
    (h : ∀ ts a q, p.Reads ts q → P ts a q → Q ts (g a) q) :
    (m >>= fun a => Pure.pure (g a)).Run K p Q := by
  refine hm.bind ?_
  intro ts a q hr hp
  refine pure ?_
  rw [List.append_nil]
  exact h ts a q hr hp

/-- The result of a run is mapped and nothing else changes. -/
lemma map {f : α → β} {Q : List Token → β → Parser → Prop}
    (h : m.Run K p fun ts a q => Q ts (f a) q) : (f <$> m).Run K p Q := by
  cases h with
  | ok he hr hk hq => exact .ok (map_apply_ok f he) hr hk hq
  | error he hr hk hp => exact .error (map_apply_error f he) hr hk hp

/-- A run may go by the kind of the current token. -/
lemma kind {f : Kind → ParseM β} {Q : List Token → β → Parser → Prop}
    (h : (f p.kind).Run K p Q) : (ParseM.kind >>= f).Run K p Q :=
  congr (n := f p.kind) rfl h

/-- A run may look at its parser. -/
lemma window {f : Parser → ParseM β} {Q : List Token → β → Parser → Prop}
    (h : (f p).Run K p Q) : (ParseM.window >>= f).Run K p Q :=
  congr (n := f p) rfl h

/-- Noting that a production is tried reads nothing. -/
lemma enter {production : Production} {f : Unit → ParseM β} {Q : List Token → β → Parser → Prop}
    (h : (f ()).Run K (p.note (.tried production)) Q) :
    (ParseM.enter production >>= f).Run K p Q :=
  of_reads (.note p _) nofun rfl h

/-- Moving on reads the current token. -/
lemma advance {f : Unit → ParseM β} {Q : List Token → β → Parser → Prop} (hne : p.kind ≠ .eof)
    (hk : K p.kind) (h : (f ()).Run K p.advance fun us => Q (p.current :: us)) :
    (ParseM.advance >>= f).Run K p Q := by
  refine of_reads (.advance_of_ne_eof hne) ?_ rfl h
  intro t ht
  rw [List.mem_singleton.mp ht]
  exact hk

/-- A change that moves the window. -/
lemma change {g : Parser → Parser} {us : List Token} {f : Unit → ParseM β}
    {Q : List Token → β → Parser → Prop} (hr : p.Reads us (g p)) (hk : ∀ t ∈ us, K t.kind)
    (h : (f ()).Run K (g p) fun ts => Q (us ++ ts)) : (ParseM.change g >>= f).Run K p Q :=
  of_reads hr hk rfl h

/-- A failure on the current token reads nothing and points at it. -/
lemma unexpected (expected : String) : (ParseM.unexpected expected : ParseM α).Run K p Q :=
  .error rfl (.refl p) nofun (.unexpectedToken expected p)

/-- Skipping blanks reads the blanks and stops in front of something else. -/
lemma skipBlanks (hK : ∀ k, k.isWhitespace = true → K k) (p : Parser) :
    ParseM.skipBlanks.Run K p fun ts _ q => Blanks ts ∧ q.kind.isWhitespace = false := by
  obtain ⟨ts, hr, hb, hs⟩ := p.skipWhile_reads Kind.isWhitespace rfl
  exact .ok rfl hr (fun t ht => hK _ (hb t ht)) ⟨hb, hs⟩

/-- Moves past the current token and the blanks behind it. -/
lemma advanceBlanks (hK : ∀ k, k.isWhitespace = true → K k) (hne : p.kind ≠ .eof)
    (hk : K p.kind) :
    ParseM.advanceBlanks.Run K p fun ts _ q =>
      ∃ bs, ts = p.current :: bs ∧ Blanks bs ∧ q.kind.isWhitespace = false := by
  refine advance hne hk ?_
  refine (skipBlanks hK p.advance).imp ?_
  rintro bs _ q - ⟨hb, hs⟩
  exact ⟨bs, rfl, hb, hs⟩

/-- An expected token is read alone. -/
lemma expect {k : Kind} (hne : k ≠ .eof) (hk : K k) (p : Parser) :
    (ParseM.expect k).Run K p fun ts _ _ => ∃ t, ts = [t] ∧ t.kind = k := by
  refine kind ?_
  split
  · next h =>
    refine .ok rfl (.advance_of_ne_eof (h ▸ hne)) ?_ ⟨p.current, rfl, h⟩
    intro t ht
    rw [List.mem_singleton.mp ht]
    show K p.kind
    exact h ▸ hk
  · exact unexpected _

/-- An identifier is read alone and gives its name. -/
lemma ident (expected : String) (hk : ∀ name, K (.ident name)) (p : Parser) :
    (ParseM.ident expected).Run K p fun ts name _ => ∃ t, ts = [t] ∧ t.kind = .ident name := by
  refine kind ?_
  split
  · next name h =>
    refine advance (by rw [h]; nofun) (h ▸ hk name) ?_
    exact pure ⟨p.current, rfl, h⟩
  · exact unexpected _

/-! The same for tokens that can stand inside a selector or a declaration. -/

/-- Moving past an inner token stays inside of a construct. -/
lemma advance_inner {f : Unit → ParseM β} {Q : List Token → β → Parser → Prop} (h : p.kind.Inner)
    (hf : (f ()).Run Kind.Inner p.advance fun us => Q (p.current :: us)) :
    (ParseM.advance >>= f).Run Kind.Inner p Q :=
  advance h.ne_eof h hf

/-- Skipping blanks stays inside of a construct. -/
lemma skipBlanks_inner (p : Parser) :
    ParseM.skipBlanks.Run Kind.Inner p fun ts _ q => Blanks ts ∧ q.kind.isWhitespace = false :=
  skipBlanks Kind.inner_of_isWhitespace p

/-- Moving past an inner token and the blanks behind it stays inside of a construct. -/
lemma advanceBlanks_inner (h : p.kind.Inner) :
    ParseM.advanceBlanks.Run Kind.Inner p fun ts _ q =>
      ∃ bs, ts = p.current :: bs ∧ Blanks bs ∧ q.kind.isWhitespace = false :=
  advanceBlanks Kind.inner_of_isWhitespace h.ne_eof h

/-- Moving past an inner token that is expected stays inside of a construct. -/
lemma expect_inner {k : Kind} (h : k.isInner = true) (p : Parser) :
    (ParseM.expect k).Run Kind.Inner p fun ts _ _ => ∃ t, ts = [t] ∧ t.kind = k :=
  expect (Kind.Inner.ne_eof h) h p

/-- Moving past an identifier stays inside of a construct. -/
lemma ident_inner (expected : String) (p : Parser) :
    (ParseM.ident expected).Run Kind.Inner p fun ts name _ =>
      ∃ t, ts = [t] ∧ t.kind = .ident name :=
  ident expected (fun _ => rfl) p

end Run

/-! ### Repetition -/

/-- The runs of a loop that repeats a step until there is no result, however often that may be. -/
inductive Loop (step : ParseM (Option α)) : Parser → Except ParseError (List α) → Parser → Prop where
  | done {p q : Parser} : step p = (.ok none, q) → Loop step p (.ok []) q
  | fail {p q : Parser} {e : ParseError} : step p = (.error e, q) → Loop step p (.error e) q
  | next {p q r : Parser} {a : α} {result : Except ParseError (List α)} :
    step p = (.ok (some a), q) → Loop step q result r → Loop step p (result.map (a :: ·)) r

/-- Every result of a step brings the end of the input closer. -/
def Advances (step : ParseM (Option α)) : Prop :=
  ∀ p a q, step p = (.ok (some a), q) → q.ahead < p.ahead

variable {step : ParseM (Option α)}

/-- A repetition ends where its step gives nothing. -/
lemma many_of_none (h : step p = (.ok none, q)) : many step p = (.ok [], q) := by
  rw [many, h]

/-- A repetition fails where its step does. -/
lemma many_of_error {e : ParseError} (h : step p = (.error e, q)) :
    many step p = (.error e, q) := by
  rw [many, h]

/-- A repetition goes on behind a step that has given something and moved on. -/
lemma many_of_some {a : α} (h : step p = (.ok (some a), q)) (hlt : q.ahead < p.ahead) :
    many step p = ((many step q).1.map (a :: ·), (many step q).2) := by
  rw [many, h]
  dsimp only
  rw [if_pos hlt]
  rcases many step q with ⟨r, s⟩
  cases r <;> rfl

/-- A repetition that leaves results out ends where its step gives nothing. -/
lemma manySome_of_none {step : ParseM (Option (Option α))} (h : step p = (.ok none, q)) :
    manySome step p = (.ok [], q) :=
  map_apply_ok _ (many_of_none h)

/-- A repetition puts the result of its first step in front of the others, or leaves it out. -/
lemma manySome_of_some {step : ParseM (Option (Option α))} {r : Option α} {as : List α} {s : Parser}
    (hadv : Advances step) (h : step p = (.ok (some r), q)) (hq : manySome step q = (.ok as, s)) :
    manySome step p = (.ok (r.toList ++ as), s) := by
  rcases hm : many step q with ⟨_ | rs, s'⟩
  · rw [manySome, map_apply_error _ hm] at hq
    cases hq
  · rw [manySome, map_apply_ok _ hm] at hq
    cases hq
    have hmany : many step p = (.ok (r :: rs), s) := by
      rw [many_of_some h (hadv p r q h), hm]
      rfl
    rw [manySome, map_apply_ok _ hmany]
    cases r <;> rfl

/-- Where its first step comes to the same, a repetition does. -/
lemma many_eq_of_step (hadv : Advances step) (h : step p = step q) : many step p = many step q := by
  rcases hp : step p with ⟨_ | _ | a, r⟩
  · rw [many_of_error hp, many_of_error (h.symm.trans hp)]
  · rw [many_of_none hp, many_of_none (h.symm.trans hp)]
  · have hq := h.symm.trans hp
    rw [many_of_some hp (hadv p a r hp), many_of_some hq (hadv q a r hq)]

/-- Two parsers on which the step does the same are the same to a repetition that leaves results
out. -/
lemma manySome_eq_of_step {step : ParseM (Option (Option α))} (hadv : Advances step)
    (h : step p = step q) : manySome step p = manySome step q := by
  have hmany := many_eq_of_step hadv h
  rcases hp : many step p with ⟨_ | as, r⟩
  · rw [manySome, map_apply_error _ hp, map_apply_error _ (hmany.symm.trans hp)]
  · rw [manySome, map_apply_ok _ hp, map_apply_ok _ (hmany.symm.trans hp)]

/-- A repetition whose steps advance is the loop that it stands for: it is never cut off. -/
lemma Advances.loop (h : Advances step) (p : Parser) :
    Loop step p (many step p).1 (many step p).2 := by
  -- the window moves on with every result, so the induction is on how far it can still move
  induction hn : p.ahead using Nat.strongRecOn generalizing p with
  | ind n ih =>
    rcases hs : step p with ⟨_ | _ | a, q⟩
    · rw [many_of_error hs]
      exact .fail hs
    · rw [many_of_none hs]
      exact .done hs
    · have hlt := h p a q hs
      rw [many_of_some hs hlt]
      exact .next hs (ih q.ahead (hn ▸ hlt) q rfl)

/-- What a step of a repetition reads: an item of at least one token, or what stands behind the last
item. -/
def Step (I : List Token → α → Parser → Prop) (E : List Token → Parser → Prop) :
    List Token → Option α → Parser → Prop
  | ts, some a, q => ts ≠ [] ∧ I ts a q
  | ts, none, q => E ts q

/-- A step that reads a token whenever it gives something moves on. -/
lemma Advances.of_run {I : Parser → List Token → α → Parser → Prop}
    {E : Parser → List Token → Parser → Prop} (h : ∀ p, step.Run K p (Step (I p) (E p))) :
    Advances step := by
  intro p a q he
  obtain ⟨ts, hr, -, hne, -⟩ := (h p).of_ok he
  exact hr.ahead_lt hne

/-- A repetition reads one item behind the other, and then what the step reads without an item. The
parsers in front of the steps keep `J`. -/
lemma Run.many {J : Parser → Prop} {I : α → List Token → Prop} {E : List Token → Parser → Prop}
    (h : ∀ p, J p → step.Run K p (Step (fun ts a q => I a ts ∧ J q) E)) (p : Parser) (hp : J p) :
    (ParseM.many step).Run K p fun ts as q =>
      ∃ us vs, ts = us ++ vs ∧ Each I as us ∧ E vs q := by
  -- Every result leaves less ahead, so the induction is on that and not on the results.
  induction hn : p.ahead using Nat.strongRecOn generalizing p with
  | ind n ih =>
    cases h p hp with
    | error he hr hk hq => exact .error (many_of_error he) hr hk hq
    | @ok ts r q he hr hk hq =>
      cases r with
      | none => exact .ok (many_of_none he) hr hk ⟨[], ts, rfl, .nil, hq⟩
      | some a =>
        obtain ⟨hne, ha, hj⟩ := hq
        have hlt := hr.ahead_lt hne
        have hrun := ih q.ahead (hn ▸ hlt) q hj rfl
        cases hrun with
        | error he' hr' hk' hq' =>
          refine .error ?_ (hr.trans hr') (List.forall_mem_append.mpr ⟨hk, hk'⟩) hq'
          rw [many_of_some he hlt, he']
          rfl
        | @ok ts' as s he' hr' hk' hq' =>
          obtain ⟨us, vs, rfl, has, hs⟩ := hq'
          refine .ok (a := a :: as) ?_ (hr.trans hr') (List.forall_mem_append.mpr ⟨hk, hk'⟩) ?_
          · rw [many_of_some he hlt, he']
            rfl
          · exact ⟨ts ++ us, vs, (List.append_assoc ts us vs).symm, .cons ha has, hs⟩

/-- A repetition reads one item after the other, and then what its last step reads. -/
lemma Run.items {I : α → List Token → Prop} {E : List Token → Parser → Prop}
    (h : ∀ p, step.Run K p (Step (fun ts a _ => I a ts) E)) (p : Parser) :
    (ParseM.many step).Run K p fun ts as q =>
      ∃ us vs, ts = us ++ vs ∧ Each I as us ∧ E vs q := by
  refine Run.many (J := fun _ => True) ?_ p trivial
  intro p _
  apply (h p).imp
  intro ts r q _ hr
  cases r with
  | none => exact hr
  | some a => exact ⟨hr.1, hr.2, trivial⟩

/-! ### Agreement -/

/-- A sequence depends on its first part on this parser and on its second part behind that. -/
lemma bind_congr_at {m n : ParseM α} {f g : α → ParseM β} (hmn : m p = n p)
    (h : ∀ a q, m p = (.ok a, q) → f a q = g a q) : (m >>= f) p = (n >>= g) p := by
  rcases hm : m p with ⟨_ | a, q⟩ <;> rw [hm] at hmn
  · rw [bind_apply_error hm, bind_apply_error hmn.symm]
  · rw [bind_apply_ok hm, bind_apply_ok hmn.symm]
    exact h a q hm

/-- Two productions agree if they agree behind the note that they are tried. -/
lemma enter_congr_at {production : Production} {f g : Unit → ParseM β}
    (h : f () (p.note (.tried production)) = g () (p.note (.tried production))) :
    (enter production >>= f) p = (enter production >>= g) p :=
  h

/-- Actions that go by the kind agree if they agree on the current one. -/
lemma kind_congr_at {f g : Kind → ParseM β} (h : f p.kind p = g p.kind p) :
    (kind >>= f) p = (kind >>= g) p :=
  h

/-- Actions that look at the parser agree if they agree on this one. -/
lemma window_congr_at {f g : Parser → ParseM β} (h : f p p = g p p) :
    (window >>= f) p = (window >>= g) p :=
  h

/-- Steps that agree where a repetition takes them repeat alike. -/
lemma many_congr_at {J : Parser → Prop} {f g : ParseM (Option α)} (heq : ∀ p, J p → f p = g p)
    (hkeep : ∀ p a q, J p → f p = (.ok (some a), q) → J q) (p : Parser) (hp : J p) :
    many f p = many g p := by
  induction hn : p.ahead using Nat.strongRecOn generalizing p with
  | ind n ih =>
    have hg := heq p hp
    rcases hf : f p with ⟨_ | _ | a, q⟩ <;> rw [hf] at hg
    · rw [many_of_error hf, many_of_error hg.symm]
    · rw [many_of_none hf, many_of_none hg.symm]
    · by_cases hlt : q.ahead < p.ahead
      · rw [many_of_some hf hlt, many_of_some hg.symm hlt,
          ih q.ahead (hn ▸ hlt) q (hkeep p a q hp hf) rfl]
      · rw [many, many, hf, ← hg]
        simp only [if_neg hlt]

/-! ### Recovery -/

/-- An action that gives a result on every parser. -/
def Total (m : ParseM α) : Prop :=
  ∀ p, ∃ a q, m p = (.ok a, q)

variable {m : ParseM α}

/-- Two actions that cannot fail cannot fail one after the other. -/
lemma Total.bind {f : α → ParseM β} (hm : m.Total) (hf : ∀ a, (f a).Total) : (m >>= f).Total := by
  intro p
  obtain ⟨a, q, he⟩ := hm p
  rw [bind_apply_ok he]
  exact hf a q

/-- An action that cannot fail does not. -/
lemma Total.ne_error {e : ParseError} (h : m.Total) : m p ≠ (.error e, q) := by
  obtain ⟨a, r, he⟩ := h p
  rw [he]
  nofun

/-- A result that is given at once is no failure. -/
lemma Total.pure (a : α) : (Pure.pure a : ParseM α).Total :=
  fun p => ⟨a, p, rfl⟩

/-- A change cannot fail. -/
lemma Total.change (g : Parser → Parser) : (ParseM.change g).Total :=
  fun p => ⟨(), g p, rfl⟩

/-- Moving past blanks cannot fail. -/
lemma Total.advanceBlanks : ParseM.advanceBlanks.Total :=
  (Total.change _).bind fun _ => .change _

/-- Looking at the current kind cannot fail. -/
lemma Total.kind : ParseM.kind.Total :=
  fun p => ⟨p.kind, p, rfl⟩

/-- A repetition of a step that cannot fail cannot fail. -/
lemma Total.many (h : step.Total) : (ParseM.many step).Total := by
  intro p
  induction hn : p.ahead using Nat.strongRecOn generalizing p with
  | ind n ih =>
    obtain ⟨r, q, he⟩ := h p
    cases r with
    | none => exact ⟨[], q, many_of_none he⟩
    | some a =>
      by_cases hlt : q.ahead < p.ahead
      · obtain ⟨as, s, hs⟩ := ih q.ahead (hn ▸ hlt) q rfl
        refine ⟨a :: as, s, ?_⟩
        rw [many_of_some he hlt, hs]
        rfl
      · refine ⟨[a], q, ?_⟩
        rw [ParseM.many, he]
        exact if_neg hlt

/-- A repetition that leaves results out cannot fail if its step cannot. -/
lemma Total.manySome {step : ParseM (Option (Option α))} (h : step.Total) :
    (ParseM.manySome step).Total := by
  intro p
  obtain ⟨as, q, he⟩ := h.many p
  exact ⟨as.filterMap id, q, map_apply_ok _ he⟩

/-- What succeeds is not recovered from. -/
lemma orResync_of_ok (production : Production) (boundary : Boundary) {a : α}
    (h : m p = (.ok a, q)) : orResync production boundary m p = (.ok (some a), q) := by
  simp only [orResync, MonadExcept.tryCatch, map_apply_ok some h]

/-- A failure that can be recovered from is noted, and then tokens are skipped up to the boundary.
-/
lemma orResync_of_error (production : Production) (boundary : Boundary) {e : ParseError}
    (h : m p = (.error e, q)) (he : e.isRecoverable = true) :
    orResync production boundary m p =
      (.ok none, (q.note (.ignoredError production e)).resync boundary) := by
  simp only [orResync, MonadExcept.tryCatch, map_apply_error some h, he, if_true]
  rfl

/-- What is read of a construct that may be dropped. One that is dropped takes a token, unless the
boundary to skip to is in front of it. -/
def OrDropped (p : Parser) (boundary : Boundary) (Q : List Token → α → Parser → Prop) :
    List Token → Option α → Parser → Prop
  | ts, some a, q => Q ts a q
  | ts, none, _ => p.kind ≠ .eof → boundary.verdict [] p.kind ≠ .stopBefore → ts ≠ []

/-- A construct that may be dropped never fails. -/
lemma Run.orResync {Q : List Token → α → Parser → Prop} (production : Production)
    (boundary : Boundary) (h : m.Run K p Q) :
    (ParseM.orResync production boundary m).Run Kind.Any p (OrDropped p boundary Q) := by
  cases h with
  | ok he hr _ hq =>
    exact .ok (orResync_of_ok production boundary he) hr (fun _ _ => trivial) hq
  | @error us e q he hr _ hp =>
    obtain ⟨vs, hr', hne⟩ := Parser.resync_reads boundary (q.note (.ignoredError production e))
    refine .ok (orResync_of_error production boundary he hp.isRecoverable)
      (hr.trans hr'.note_trans) (fun _ _ => trivial) ?_
    -- a failure that has read nothing is on the first token still
    intro hk hv hnil
    obtain ⟨rfl, rfl⟩ := List.append_eq_nil_iff.mp hnil
    have hc : q.kind = p.kind := congrArg Token.kind hr.current_eq
    refine hne ?_ ?_ rfl
    · exact fun hq => hk (hc.symm.trans hq)
    · rw [← hc] at hv
      exact hv

/-- No failure is left once it has been recovered from. -/
lemma Total.orResync {Q : Parser → List Token → α → Parser → Prop} (production : Production)
    (boundary : Boundary) (h : ∀ p, m.Run K p (Q p)) :
    (ParseM.orResync production boundary m).Total := by
  intro p
  cases h p with
  | ok he => exact ⟨_, _, orResync_of_ok production boundary he⟩
  | error he _ _ hp => exact ⟨_, _, orResync_of_error production boundary he hp.isRecoverable⟩

end ParseM

end CssSyntax
