import CssSyntax.Proofs.Soundness

/-!
# The window as a cursor

The three slots of a window and the source behind them stand for one position in the tokens of the
source. `Cursor` is this position, moved by calls of `ParseM.advance` and `ParseM.pushBack` on a fresh
parser, and `Shows` tells how a window shows it: on the first token, on a token that was moved to, or
on a token that was returned to. Every call keeps this (`Shows.step`), and so does every sequence of
calls (`Shows.run`). What a window does is read off its position (`window_is_cursor`).
-/

namespace CssSyntax

/-! ### Reading from a source -/

namespace Source

/-- A source from which a number of tokens have been read. -/
def behind (source : Source) : Nat → Source
  | 0 => source
  | n + 1 => (source.behind n).next.source

/-- Behind a number of tokens the stream is that of the source behind them. -/
lemma drop_stream (source : Source) (n : Nat) :
    source.stream.drop n = (source.behind n).stream := by
  induction n with
  | zero => rfl
  | succ n ih =>
    rw [← Stream'.tail_drop', ih, stream_eq]
    rfl

/-- A token of the stream is the one that is read behind those in front of it. -/
lemma get_stream (source : Source) (n : Nat) :
    source.stream.get n = (source.behind n).next.token := by
  rw [← Stream'.head_drop, drop_stream, stream_eq]
  rfl

/-- Behind a number of tokens stands the one with this number, and then those of the source behind
it. -/
lemma drop_stream_eq (source : Source) (n : Nat) :
    source.stream.drop n = [source.stream.get n] ++ₛ (source.behind (n + 1)).stream := by
  rw [drop_stream, stream_eq, get_stream]
  rfl

end Source

/-! ### Calls -/

/-- A call that moves a window. -/
inductive Call where
  | advance
  | pushBack
deriving DecidableEq, Repr

namespace Call

/-- What a call does. -/
def action : Call → ParseM Unit
  | advance => ParseM.advance
  | pushBack => ParseM.pushBack

/-- How many tokens a call reads from the source of a parser. -/
def reads (p : Parser) : Call → Nat
  | advance => if p.pushedBack = none ∧ p.kind ≠ .eof then 1 else 0
  | pushBack => 0

end Call

namespace Parser

variable {p : Parser}

/-- A token that the window has moved past is returned to. -/
lemma pushBack_of_previous {t : Token} (hb : p.pushedBack = none) (ht : p.previous = some t) :
    ParseM.pushBack p =
      (.ok (), { p with current := t, previous := none, pushedBack := some p.current }) := by
  simp only [ParseM.pushBack, pushBack, hb, ht]

/-- Without a token before, pushing back is a misuse. -/
lemma pushBack_of_no_previous (hb : p.pushedBack = none) (ht : p.previous = none) :
    ParseM.pushBack p = (.error (.misuse .noPrevious), p) := by
  simp only [ParseM.pushBack, pushBack, hb, ht]

/-- Pushing back a second token is a misuse. -/
lemma pushBack_of_pushedBack {t : Token} (hb : p.pushedBack = some t) :
    ParseM.pushBack p = (.error (.misuse .pushBackTwice), p) := by
  simp only [ParseM.pushBack, pushBack, hb]

/-- The parser behind a sequence of calls, whether they succeed or not. -/
def afterCalls (p : Parser) : List Call → Parser
  | [] => p
  | call :: calls => (call.action p).2.afterCalls calls

/-- How many tokens a sequence of calls reads from the source of a parser. -/
def readsOf (p : Parser) : List Call → Nat
  | [] => 0
  | call :: calls => call.reads p + (call.action p).2.readsOf calls

end Parser

/-- A position in a stream of tokens, and how it has come about. -/
structure Cursor where
  position : Nat
  /-- The highest position that was reached. -/
  highest : Nat
  /-- The last call that has changed the position. -/
  lastMove : Option Call

namespace Cursor

/-- The position of a fresh parser. -/
def start : Cursor :=
  ⟨0, 0, none⟩

/-- A call moves to the next token, unless the input ends here, or back from a token that was moved
to. -/
def step (stream : Stream' Token) (c : Cursor) : Call → Cursor
  | .advance =>
    if (stream.get c.position).kind = .eof then c
    else ⟨c.position + 1, max c.highest (c.position + 1), some .advance⟩
  | .pushBack =>
    if c.lastMove = some .advance then ⟨c.position - 1, c.highest, some .pushBack⟩
    else c

/-- The position behind a sequence of calls. -/
def afterCalls (stream : Stream' Token) (c : Cursor) : List Call → Cursor
  | [] => c
  | call :: calls => (c.step stream call).afterCalls stream calls

end Cursor

/-- How a window over a source shows a position. -/
inductive Shows (source : Source) (p : Parser) : Cursor → Prop where
  /-- The window is on the first token. -/
  | first :
    p.current = source.stream.get 0 → p.previous = none → p.pushedBack = none →
      p.source = source.behind 1 → Shows source p .start
  /-- The window has moved on, and remembers the token before. -/
  | moved {n : Nat} :
    (source.stream.get n).kind ≠ .eof → p.current = source.stream.get (n + 1) →
      p.previous = some (source.stream.get n) → p.pushedBack = none →
      p.source = source.behind (n + 2) → Shows source p ⟨n + 1, n + 1, some .advance⟩
  /-- The window has returned, and the token that it has left is pushed back. -/
  | returned {n : Nat} :
    (source.stream.get n).kind ≠ .eof → p.current = source.stream.get n →
      p.previous = none → p.pushedBack = some (source.stream.get (n + 1)) →
      p.source = source.behind (n + 2) → Shows source p ⟨n, n + 1, some .pushBack⟩

namespace Shows

variable {source : Source} {p : Parser} {c : Cursor}

/-- A fresh parser is on the first token. -/
lemma ofSource (source : Source) (config : Config) :
    Shows source (.ofSource source config) .start :=
  .first rfl rfl rfl rfl

/-- A window that has nothing pushed back reads the next token, unless the input has ended. -/
lemma advance_of_not_pushedBack {n : Nat} {lastMove : Option Call}
    (h : Shows source p ⟨n, n, lastMove⟩) (hc : p.current = source.stream.get n)
    (hb : p.pushedBack = none) (hs : p.source = source.behind (n + 1)) :
    Shows source p.advance (Cursor.step source.stream ⟨n, n, lastMove⟩ .advance) ∧
      n + Call.advance.reads p = (Cursor.step source.stream ⟨n, n, lastMove⟩ .advance).highest := by
  by_cases hk : p.kind = .eof
  · have hn : (source.stream.get n).kind = .eof := hc ▸ hk
    simp only [Cursor.step, Call.reads, hn, hk, if_true, ne_eq, not_true_eq_false, and_false,
      if_false, Nat.add_zero, and_true]
    rwa [Parser.advance_of_eof hb hk]
  · have hn : (source.stream.get n).kind ≠ .eof := hc ▸ hk
    have hmax : max n (n + 1) = n + 1 := Nat.max_eq_right (Nat.le_succ n)
    simp only [Cursor.step, Call.reads, hn, hk, hb, if_false, ne_eq, not_false_eq_true, and_self,
      if_true, hmax, and_true]
    rw [Parser.advance_of_ne_eof hb hk]
    refine .moved hn ?_ (congrArg some hc) hb ?_
    · rw [Source.get_stream, ← hs]
    · exact congrArg (fun s => s.next.source) hs

/-- A call moves a window as it moves the position that the window shows, and reads a token if the
position is higher than any before. -/
lemma step (h : Shows source p c) (call : Call) :
    Shows source (call.action p).2 (c.step source.stream call) ∧
      c.highest + call.reads p = (c.step source.stream call).highest := by
  cases call with
  | advance =>
    cases h with
    | first hc hp hb hs => exact advance_of_not_pushedBack (.first hc hp hb hs) hc hb hs
    | moved hn hc hp hb hs => exact advance_of_not_pushedBack (.moved hn hc hp hb hs) hc hb hs
    | @returned n hn hc hp hb hs =>
      -- The token was pushed back: it has been read before and counts no second time.
      have hmax : max (n + 1) (n + 1) = n + 1 := Nat.max_self _
      simp only [Cursor.step, Call.reads, hn, hb, if_false, reduceCtorEq, false_and, hmax,
        Nat.add_zero, and_true]
      show Shows source p.advance _
      rw [Parser.advance_of_pushedBack hb]
      exact .moved hn rfl (congrArg some hc) rfl hs
  | pushBack =>
    cases h with
    | first hc hp hb hs =>
      refine ⟨?_, rfl⟩
      show Shows source (ParseM.pushBack p).2 .start
      rw [Parser.pushBack_of_no_previous hb hp]
      exact .first hc hp hb hs
    | moved hn hc hp hb hs =>
      refine ⟨?_, rfl⟩
      show Shows source (ParseM.pushBack p).2 ⟨_, _, some .pushBack⟩
      rw [Parser.pushBack_of_previous hb hp]
      exact .returned hn rfl rfl (congrArg some hc) hs
    | @returned n hn hc hp hb hs =>
      refine ⟨?_, rfl⟩
      show Shows source (ParseM.pushBack p).2 ⟨n, n + 1, some .pushBack⟩
      rw [Parser.pushBack_of_pushedBack hb]
      exact .returned hn hc hp hb hs

/-- A sequence of calls moves a window as it moves the position, and reads a token for every position
that is reached for the first time. -/
lemma run (h : Shows source p c) (calls : List Call) :
    Shows source (p.afterCalls calls) (c.afterCalls source.stream calls) ∧
      c.highest + p.readsOf calls = (c.afterCalls source.stream calls).highest := by
  induction calls generalizing p c with
  | nil => exact ⟨h, rfl⟩
  | cons call calls ih =>
    obtain ⟨hstep, hreads⟩ := h.step call
    obtain ⟨hrun, hrest⟩ := ih hstep
    refine ⟨hrun, ?_⟩
    rw [← hreads, Nat.add_assoc] at hrest
    exact hrest

/-- The window is on the token at its position. -/
lemma current (h : Shows source p c) : p.current = source.stream.get c.position := by
  cases h with
  | first hc | moved _ hc | returned _ hc => exact hc

/-- The source has been read up to the highest position. -/
lemma source_eq (h : Shows source p c) : p.source = source.behind (c.highest + 1) := by
  cases h with
  | first _ _ _ hs | moved _ _ _ _ hs | returned _ _ _ _ hs => exact hs

/-- What a window has in front of it are the tokens from its position on. -/
lemma stream (h : Shows source p c) : p.stream = source.stream.drop c.position := by
  cases h with
  | first hc _ hb hs | moved _ hc _ hb hs =>
    rw [Parser.stream, hc, hb, hs, Source.drop_stream_eq]
    rfl
  | @returned n _ hc _ hb hs =>
    rw [Parser.stream, hc, hb, hs, Source.drop_stream_eq]
    show [_] ++ₛ ([_] ++ₛ _) = [source.stream.get n] ++ₛ (source.behind (n + 1)).stream
    rw [← Source.drop_stream source (n + 1), Source.drop_stream_eq]

/-- A window over a list has the tokens of the list from its position on in front of it, also those
behind an end of the input. -/
lemma stream_tokens {ts : List Token} (h : Shows (.tokens ts) p c) (hc : c.position ≤ ts.length) :
    p.stream = ts.drop c.position ++ₛ (Source.tokens []).stream := by
  have hlist : (Source.tokens ts).stream = ts ++ₛ (Source.tokens []).stream := by
    rw [← Source.stream_tokens, List.append_nil]
  rw [h.stream, hlist, Stream'.drop_append_of_le_length _ _ _ hc]

/-- A window that is on the end of the input stays there. -/
lemma advance_of_eof (h : Shows source p c) (hk : p.kind = .eof) : p.advance = p := by
  cases h with
  | first _ _ hb _ | moved _ _ _ hb _ => exact Parser.advance_of_eof hb hk
  | returned hn hc _ _ _ => exact absurd (hc ▸ hk) hn

/-- The last move alone decides what comes of returning to the token before. -/
lemma pushBack (h : Shows source p c) :
    match c.lastMove with
    | some .advance => ∃ q, ParseM.pushBack p = (.ok (), q)
    | some .pushBack => ParseM.pushBack p = (.error (.misuse .pushBackTwice), p)
    | none => ParseM.pushBack p = (.error (.misuse .noPrevious), p) := by
  cases h with
  | first _ hp hb _ => exact Parser.pushBack_of_no_previous hb hp
  | moved _ _ hp hb _ => exact ⟨_, Parser.pushBack_of_previous hb hp⟩
  | returned _ _ _ hb _ => exact Parser.pushBack_of_pushedBack hb

end Shows

/-- Whatever calls are made on a fresh parser, its window is a cursor over the tokens of the source.
It stands on the token at its position and has the tokens from there on in front of it. At the end of
the input a call for the next token changes nothing. The token before can be returned to if and only
if the last move was to a next token; otherwise the call is a misuse and changes nothing. One token
has been read for every position up to the highest that was reached, and none ahead. -/
theorem window_is_cursor (source : Source) (config : Config) (calls : List Call) :
    let fresh := Parser.ofSource source config
    let p := fresh.afterCalls calls
    let c := Cursor.start.afterCalls source.stream calls
    p.current = source.stream.get c.position ∧
    p.stream = source.stream.drop c.position ∧
    (p.kind = .eof → p.advance = p) ∧
    (match c.lastMove with
      | some .advance => ∃ q, ParseM.pushBack p = (.ok (), q)
      | some .pushBack => ParseM.pushBack p = (.error (.misuse .pushBackTwice), p)
      | none => ParseM.pushBack p = (.error (.misuse .noPrevious), p)) ∧
    p.source = source.behind (c.highest + 1) ∧
    fresh.readsOf calls + 1 = c.highest + 1 := by
  obtain ⟨h, hreads⟩ := (Shows.ofSource source config).run calls
  refine ⟨h.current, h.stream, h.advance_of_eof, h.pushBack, h.source_eq, ?_⟩
  rw [← hreads]
  exact congrArg Nat.succ (Nat.zero_add _).symm

/-- Over `a`, an end of the input and `b`, the window stays on the end and returns from it to `a`. All
three tokens are in front of it then, the last one in the list still. -/
example :
    let ts : List Token := [⟨.ident "a", .origin⟩, ⟨.eof, .origin⟩, ⟨.ident "b", .origin⟩]
    let p := (Parser.ofSource (.tokens ts) {}).afterCalls [.advance, .advance, .pushBack]
    p.kind = .ident "a" ∧ p.stream.take 3 = ts := by
  decide

end CssSyntax
