import Mathlib.Tactic.Lemma
import CssSyntax.Recovery

/-!
# Reading

`Parser.unread` is what a parser has in front of it, up to the end of the input, and `Parser.Reads`
are the ways in which a window moves on: `p.Reads ts q` says that `q` is reached from `p` by moving
past the tokens `ts`. A window may also look at the next token and return, and records may be added.

Everything that a move keeps is derived from the constructors of `Reads`: what is read is exactly
what is no longer unread (`Reads.unread`), every token read brings the end of the input closer
(`Reads.ahead`), and the settings and the function depth stay as they are. Skipping and recovery are
moves of this kind.
-/

namespace CssSyntax

/-- The tokens of a source up to the end of the input, which is the last of them. -/
def Source.unread (source : Source) : List Token :=
  if h : source.next.token.kind = .eof then [source.next.token]
  else
    have := Source.remaining_next_lt h
    source.next.token :: source.next.source.unread
termination_by source.remaining

namespace Source

/-- Behind its last token a list has the end of the input left. -/
lemma unread_nil : (tokens []).unread = [⟨.eof, .origin⟩] := by
  rw [unread]
  rfl

/-- A list has its first token left, and the others unless this is the end of the input. -/
lemma unread_cons (t : Token) (ts : List Token) :
    (tokens (t :: ts)).unread = if t.kind = .eof then [t] else t :: (tokens ts).unread := by
  rw [unread]
  rfl

end Source

namespace Parser

/-- A token and what a source has behind it, up to the end of the input. -/
def unreadFrom (t : Token) (source : Source) : List Token :=
  if t.kind = .eof then [t] else t :: source.unread

/-- The tokens from the current one on, up to the end of the input. -/
def unread (p : Parser) : List Token :=
  match p.pushedBack with
  | some t => p.current :: unreadFrom t p.source
  | none => unreadFrom p.current p.source

/-- A token and the source behind it leave what the source in front of it leaves. -/
lemma unreadFrom_next (source : Source) :
    unreadFrom source.next.token source.next.source = source.unread := by
  rw [Source.unread]
  unfold unreadFrom
  split <;> rfl

/-- A fresh parser has all tokens of its source left. -/
lemma unread_ofSource (source : Source) (config : Config) :
    (ofSource source config).unread = source.unread :=
  unreadFrom_next source

/-- A parser has the tokens of a list in front of it, up to the first end of the input in it. -/
lemma unread_ofSource_tokens {ts us : List Token} (h : ∀ t ∈ ts, t.kind ≠ .eof) (config : Config) :
    (ofSource (.tokens (ts ++ us)) config).unread = ts ++ (Source.tokens us).unread := by
  rw [unread_ofSource]
  induction ts with
  | nil => rfl
  | cons t ts ih =>
    obtain ⟨ht, hts⟩ := List.forall_mem_cons.mp h
    rw [List.cons_append, Source.unread_cons, if_neg ht, ih hts, List.cons_append]

/-- The current token is the first of those that are not read yet. -/
lemma unread_eq_cons (p : Parser) : ∃ ts, p.unread = p.current :: ts := by
  unfold unread unreadFrom
  split
  · exact ⟨_, rfl⟩
  · split
    · exact ⟨[], rfl⟩
    · exact ⟨_, rfl⟩

/-- The first token that is left is the current one. -/
lemma current_of_unread {p : Parser} {t : Token} {ts : List Token} (h : p.unread = t :: ts) :
    p.current = t := by
  obtain ⟨us, hp⟩ := p.unread_eq_cons
  exact (List.cons.inj (hp.symm.trans h)).1

/-- The kind of the first token that is left is the one that the parser looks at. -/
lemma kind_of_unread {p : Parser} {t : Token} {ts : List Token} {k : Kind} (h : p.unread = t :: ts)
    (hk : t.kind = k) : p.kind = k :=
  (congrArg Token.kind (current_of_unread h)).trans hk

/-- The current token is among those that are left. -/
lemma current_mem_unread (p : Parser) : p.current ∈ p.unread := by
  obtain ⟨ts, hp⟩ := p.unread_eq_cons
  rw [hp]
  exact List.mem_cons_self

/-- A parser can leave its current token, which is so unless it is the end of the input. -/
def CanMove (p : Parser) : Prop :=
  p.kind ≠ .eof ∨ p.pushedBack ≠ none

/-- A window that cannot move stays where it is. -/
lemma advance_of_not_canMove {p : Parser} (h : ¬ p.CanMove) : p.advance = p := by
  obtain ⟨hk, hb⟩ := not_or.mp h
  exact advance_of_eof (Classical.not_not.mp hb) (Classical.not_not.mp hk)

/-- A move takes the first token off those that are left. -/
lemma CanMove.unread {p : Parser} (h : p.CanMove) :
    p.unread = p.current :: p.advance.unread := by
  cases hb : p.pushedBack with
  | some t =>
    rw [advance_of_pushedBack hb]
    simp only [Parser.unread, hb]
  | none =>
    have hk : p.kind ≠ .eof := h.resolve_right fun hn => hn hb
    have hu : unreadFrom p.current p.source = p.current :: p.source.unread := if_neg hk
    rw [advance_of_ne_eof hb hk]
    simp only [Parser.unread, hb, hu, unreadFrom_next]

/-- A parser stands on the first of its unread tokens, and moves on to the others. -/
lemma unread_advance {p : Parser} {t : Token} {ts : List Token} (hu : p.unread = t :: ts)
    (hne : t.kind ≠ .eof) : p.current = t ∧ p.advance.unread = ts := by
  obtain rfl := current_of_unread hu
  have hm : p.CanMove := .inl hne
  exact ⟨rfl, (List.cons.inj (hm.unread.symm.trans hu)).2⟩

/-- A move makes the bound on further moves smaller. -/
lemma CanMove.ahead {p : Parser} (h : p.CanMove) : p.advance.ahead < p.ahead := by
  by_cases hk : p.kind = .eof
  · -- only a token that was pushed back is left behind the end of the input
    obtain ⟨t, hb⟩ := Option.ne_none_iff_exists'.mp (h.resolve_left fun hn => hn hk)
    rw [advance_of_pushedBack hb]
    simp only [Parser.ahead, hb]
    exact Nat.lt_succ_self _
  · exact ahead_advance_lt hk

/-- Looking at the next token and returning keeps the current token, and pushes the next one back. -/
lemma pushBack_advance {p : Parser} (h : p.kind ≠ .eof) :
    ∃ t source log,
      p.advance.pushBack =
        .ok { p with source, log, previous := none, pushedBack := some t } ∧
      p.unread = p.current :: unreadFrom t source ∧
      reach t source + 1 ≤ p.ahead := by
  cases hb : p.pushedBack with
  | some t =>
    refine ⟨t, p.source, p.log, ?_, ?_, ?_⟩
    · rw [advance_of_pushedBack hb]
      rfl
    · simp only [unread, hb]
    · simp only [ahead, hb, Nat.le_refl]
  | none =>
    refine ⟨p.source.next.token, p.source.next.source, p.source.next.records.reverse ++ p.log,
      ?_, ?_, ?_⟩
    · rw [advance_of_ne_eof hb h]
      simp only [pushBack, hb]
    · have hu : unreadFrom p.current p.source = p.current :: p.source.unread := if_neg h
      simp only [unread, hb, hu, unreadFrom_next]
    · have hr : reach p.current p.source = p.source.remaining + 1 := if_neg h
      simp only [ahead, hb, hr]
      exact Nat.succ_le_succ (reach_next_le p.source)

/-- The moves of a window, with the tokens that they move past. -/
inductive Reads : Parser → List Token → Parser → Prop where
  | refl (p : Parser) : Reads p [] p
  | note (p : Parser) (r : Record) : Reads p [] (p.note r)
  | advance {p : Parser} : p.CanMove → Reads p [p.current] p.advance
  /-- The next token is looked at and pushed back. -/
  | lookAhead {p q : Parser} : p.kind ≠ .eof → p.advance.pushBack = .ok q → Reads p [] q
  | trans {p q r : Parser} {ts us : List Token} :
    Reads p ts q → Reads q us r → Reads p (ts ++ us) r

/-- In front of the end of the input a move reads the current token. -/
lemma Reads.advance_of_ne_eof {p : Parser} (h : p.kind ≠ .eof) : p.Reads [p.current] p.advance :=
  .advance (.inl h)

/-- A record that was noted first changes nothing of what is read. -/
lemma Reads.note_trans {p q : Parser} {r : Record} {ts : List Token}
    (h : (p.note r).Reads ts q) : p.Reads ts q :=
  (Reads.note p r).trans h

/-- What is read and what is left behind it are the tokens that were left before. -/
lemma Reads.unread {p q : Parser} {ts : List Token} (h : p.Reads ts q) :
    p.unread = ts ++ q.unread := by
  induction h with
  | refl => rfl
  | note => rfl
  | advance hm => exact hm.unread
  | @lookAhead p q hk hq =>
    obtain ⟨t, source, log, hp, hu, -⟩ := pushBack_advance hk
    rw [hp] at hq
    cases hq
    exact hu
  | trans _ _ ihp ihq => rw [ihp, ihq, List.append_assoc]

/-- What is unread behind a move was unread before it. -/
lemma Reads.unread_subset {p q : Parser} {ts : List Token} (h : p.Reads ts q) :
    q.unread ⊆ p.unread := by
  rw [h.unread]
  exact List.subset_append_right ts q.unread

/-- Every token that is read makes the bound on further moves smaller by one at least. -/
lemma Reads.ahead {p q : Parser} {ts : List Token} (h : p.Reads ts q) :
    q.ahead + ts.length ≤ p.ahead := by
  induction h with
  | refl => exact Nat.le_refl _
  | note => exact Nat.le_refl _
  | advance hm => exact hm.ahead
  | @lookAhead p q hk hq =>
    obtain ⟨t, source, log, hp, -, ha⟩ := pushBack_advance hk
    rw [hp] at hq
    cases hq
    exact ha
  | trans _ _ ihp ihq =>
    rw [List.length_append]
    omega

/-- The window is nearer to the end of the input behind every token. -/
lemma Reads.ahead_lt {p q : Parser} {ts : List Token} (h : p.Reads ts q) (hne : ts ≠ []) :
    q.ahead < p.ahead := by
  have hl : 0 < ts.length := List.length_pos_iff.mpr hne
  have ha := h.ahead
  omega

/-- A window that moves past nothing stays on its token. -/
lemma Reads.current_eq {p q : Parser} (h : p.Reads [] q) : q.current = p.current := by
  obtain ⟨ts, hp⟩ := p.unread_eq_cons
  obtain ⟨us, hq⟩ := q.unread_eq_cons
  have hu := h.unread
  rw [hp, hq, List.nil_append] at hu
  exact (List.cons.inj hu).1.symm

/-- Moves do not depend on the depth. -/
lemma advance_withDepth (p : Parser) (n : Nat) :
    { p with depth := n }.advance = { p.advance with depth := n } := by
  unfold advance kind
  dsimp only
  split
  · rfl
  · split <;> rfl

/-- Pushing a token back does not depend on the depth. -/
lemma pushBack_withDepth {p q : Parser} (n : Nat) (h : p.pushBack = .ok q) :
    { p with depth := n }.pushBack = .ok { q with depth := n } := by
  unfold pushBack at h ⊢
  dsimp only
  split at h
  · cases h
  · cases h
  · cases h
    rfl

/-- The function depth takes no part in a move. -/
lemma Reads.withDepth {p q : Parser} {ts : List Token} (n : Nat) (h : p.Reads ts q) :
    Reads { p with depth := n } ts { q with depth := n } := by
  induction h with
  | refl => exact .refl _
  | note p r => exact .note { p with depth := n } r
  | @advance p hm =>
    have ha : Reads { p with depth := n } [p.current] { p with depth := n }.advance := .advance hm
    rwa [advance_withDepth] at ha
  | @lookAhead p q hk hq =>
    have hq' := pushBack_withDepth n hq
    rw [← advance_withDepth] at hq'
    exact .lookAhead (p := { p with depth := n }) hk hq'
  | trans _ _ ihp ihq => exact ihp.trans ihq

/-- A move keeps the settings and the depth. -/
lemma advance_settings (p : Parser) : p.advance.config = p.config ∧ p.advance.depth = p.depth := by
  unfold advance
  split
  · exact ⟨rfl, rfl⟩
  · split <;> exact ⟨rfl, rfl⟩

/-- Neither the settings nor the function depth change in a move. -/
lemma Reads.settings {p q : Parser} {ts : List Token} (h : p.Reads ts q) :
    q.config = p.config ∧ q.depth = p.depth := by
  induction h with
  | refl => exact ⟨rfl, rfl⟩
  | note => exact ⟨rfl, rfl⟩
  | @advance p hm => exact p.advance_settings
  | @lookAhead p q hk hq =>
    obtain ⟨t, source, log, hp, -, -⟩ := pushBack_advance hk
    rw [hp] at hq
    cases hq
    exact ⟨rfl, rfl⟩
  | trans _ _ ihp ihq => exact ⟨ihq.1.trans ihp.1, ihq.2.trans ihp.2⟩

/-- A call for the next token reads the current one or nothing. -/
lemma advance_reads (p : Parser) : ∃ ts, p.Reads ts p.advance := by
  by_cases h : p.CanMove
  · exact ⟨_, .advance h⟩
  · rw [advance_of_not_canMove h]
    exact ⟨[], .refl p⟩

/-- Nothing is skipped from a token that is none to skip. -/
lemma skipWhile_of_stop {skips : Kind → Bool} {stops : skips .eof = false} {p : Parser}
    (h : skips p.kind = false) : p.skipWhile skips stops = p := by
  rw [skipWhile, dif_neg (Bool.eq_false_iff.mp h)]

/-- Skipping moves past the tokens to skip, up to the first other one. -/
lemma skipWhile_reads (skips : Kind → Bool) (stops : skips .eof = false) (p : Parser) :
    ∃ ts, p.Reads ts (p.skipWhile skips stops) ∧ (∀ t ∈ ts, skips t.kind = true) ∧
      skips (p.skipWhile skips stops).kind = false := by
  fun_induction skipWhile skips stops p with
  | case1 p h hne _ ih =>
    obtain ⟨ts, hr, hs, he⟩ := ih
    refine ⟨p.current :: ts, (Reads.advance_of_ne_eof hne).trans hr, ?_, he⟩
    intro t ht
    cases ht with
    | head => exact h
    | tail _ ht => exact hs t ht
  | case2 p h => exact ⟨[], .refl p, nofun, Bool.eq_false_iff.mpr h⟩

/-- Skipping drops the tokens to skip from those that are not read yet. -/
lemma skipWhile_unread (skips : Kind → Bool) (stops : skips .eof = false) (p : Parser) :
    ∃ ts, p.Reads ts (p.skipWhile skips stops) ∧
      (p.skipWhile skips stops).unread = p.unread.dropWhile (skips ·.kind) := by
  obtain ⟨ts, hr, hts, hs⟩ := p.skipWhile_reads skips stops
  obtain ⟨us, hu⟩ := (p.skipWhile skips stops).unread_eq_cons
  refine ⟨ts, hr, ?_⟩
  rw [hr.unread, List.dropWhile_append_of_pos hts, hu]
  exact (List.dropWhile_cons_of_neg (p := fun t : Token => skips t.kind)
    (Bool.eq_false_iff.mp hs)).symm

/-- Skipping what stands between rules is a reading. -/
lemma skipFiller_reads (p : Parser) : ∃ ts, p.Reads ts p.skipFiller := by
  obtain ⟨ts, hr, -, -⟩ := p.skipWhile_reads Kind.isFiller rfl
  exact ⟨ts, hr⟩

/-- Recovery moves on. It moves past a token unless it stands on a boundary already. -/
lemma resyncWithin_reads (boundary : Boundary) (brackets : List Bracket) (p : Parser) :
    ∃ ts, p.Reads ts (p.resyncWithin boundary brackets) ∧
      (p.kind ≠ .eof → boundary.verdict brackets p.kind ≠ .stopBefore → ts ≠ []) := by
  fun_induction resyncWithin boundary brackets p with
  | case1 _ p h => exact ⟨[], .refl p, fun hne => absurd h hne⟩
  | case2 _ p _ hv => exact ⟨[], .refl p, fun _ hs => absurd hv hs⟩
  | case3 _ p h _ =>
    exact ⟨[p.current], .advance_of_ne_eof h, fun _ _ => List.cons_ne_nil _ _⟩
  | case4 _ p h _ _ ih =>
    obtain ⟨ts, hr, -⟩ := ih
    exact ⟨p.current :: ts, (Reads.advance_of_ne_eof h).trans hr,
      fun _ _ => List.cons_ne_nil _ _⟩

/-- Recovery is a reading, and it takes a token unless it starts on one that it stops in front of.
-/
lemma resync_reads (boundary : Boundary) (p : Parser) :
    ∃ ts, p.Reads ts (p.resync boundary) ∧
      (p.kind ≠ .eof → boundary.verdict [] p.kind ≠ .stopBefore → ts ≠ []) := by
  obtain ⟨ts, hr, hne⟩ := resyncWithin_reads boundary [] (p.note (.resyncing boundary p.current))
  exact ⟨ts, hr.note_trans, hne⟩

/-- Skipping the rest of an at-rule is a reading. -/
lemma skipAtRuleWithin_reads (depth : Nat) (p : Parser) :
    ∃ ts, p.Reads ts (p.skipAtRuleWithin depth) := by
  fun_induction skipAtRuleWithin depth p with
  | case1 _ p h => exact ⟨[], .refl p⟩
  | case2 _ p h _ _ ih | case4 _ p h _ _ _ ih | case6 _ p h _ _ _ ih | case7 _ p h _ _ _ _ ih =>
    obtain ⟨ts, hr⟩ := ih
    exact ⟨p.current :: ts, (Reads.advance_of_ne_eof h).trans hr⟩
  | case3 p h | case5 p h => exact ⟨[p.current], .advance_of_ne_eof h⟩

/-- An at-rule is skipped with its keyword at least. -/
lemma skipAtRule_reads {p : Parser} (h : p.kind ≠ .eof) :
    ∃ ts, p.Reads ts p.skipAtRule ∧ ts ≠ [] := by
  obtain ⟨ts, hr⟩ := skipAtRuleWithin_reads 0 (p.note (.tried .unknownAtRule)).advance
  have ha : (p.note (.tried .unknownAtRule)).Reads [p.current] _ := .advance_of_ne_eof h
  exact ⟨p.current :: ts, (ha.trans hr).note_trans, List.cons_ne_nil _ _⟩

end Parser

end CssSyntax
