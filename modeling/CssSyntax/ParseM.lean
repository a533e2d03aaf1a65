import CssSyntax.Recovery

/-!
# Parsing actions

An action reads from a parser and gives a result or the cause of its failure. Either way it leaves
the parser where it stopped, so that recovery can start on the token that caused the failure.
-/

namespace CssSyntax

/-- An action on a parser. -/
def ParseM (α : Type) : Type :=
  Parser → Except ParseError α × Parser

namespace ParseM

variable {α β : Type}

instance : Monad ParseM where
  pure a := fun p => (.ok a, p)
  bind m f := fun p =>
    match m p with
    | (.ok a, q) => f a q
    | (.error e, q) => (.error e, q)

instance : MonadExcept ParseError ParseM where
  throw e := fun p => (.error e, p)
  tryCatch m handle := fun p =>
    match m p with
    | (.ok a, q) => (.ok a, q)
    | (.error e, q) => handle e q

/-- An action that succeeds hands its result and its parser on. -/
theorem bind_apply_ok {m : ParseM α} {p q : Parser} {a : α} (h : m p = (.ok a, q))
    (f : α → ParseM β) : (m >>= f) p = f a q := by
  simp only [bind, h]

/-- An action that fails leaves the actions behind it out. -/
theorem bind_apply_error {m : ParseM α} {p q : Parser} {e : ParseError}
    (h : m p = (.error e, q)) (f : α → ParseM β) : (m >>= f) p = (.error e, q) := by
  simp only [bind, h]

/-- Mapping with the identity changes nothing. -/
protected theorem id_map (m : ParseM α) : id <$> m = m := by
  funext p
  show (match m p with | (.ok a, q) => (.ok a, q) | (.error e, q) => (.error e, q)) = m p
  rcases m p with ⟨r, q⟩
  cases r <;> rfl

/-- Actions follow each other in the same way, however they are grouped. -/
protected theorem bind_assoc {γ : Type} (m : ParseM α) (f : α → ParseM β) (g : β → ParseM γ) :
    m >>= f >>= g = m >>= fun a => f a >>= g := by
  funext p
  simp only [bind]
  rcases m p with ⟨r, q⟩
  cases r <;> rfl

instance : LawfulMonad ParseM :=
  LawfulMonad.mk' ParseM ParseM.id_map (fun _ _ => rfl) ParseM.bind_assoc

/-- The parser that an action starts on. -/
def window : ParseM Parser :=
  fun p => (.ok p, p)

/-- Changes the parser. -/
def change (f : Parser → Parser) : ParseM Unit :=
  fun p => (.ok (), f p)

/-- The kind of the current token. -/
def kind : ParseM Kind :=
  fun p => (.ok p.kind, p)

/-- Moves on to the next token. -/
def advance : ParseM Unit :=
  change Parser.advance

/-- Returns to the previous token. -/
def pushBack : ParseM Unit := fun p =>
  match p.pushBack with
  | .ok q => (.ok (), q)
  | .error cause => (.error (.misuse cause), p)

/-- Skips blanks. -/
def skipBlanks : ParseM Unit :=
  change Parser.skipBlanks

/-- Moves on to the next token that is no blank. -/
def advanceBlanks : ParseM Unit := do
  advance
  skipBlanks

/-- Notes that a production is tried. -/
def enter (production : Production) : ParseM Unit :=
  change fun p => p.note (.tried production)

/-- Fails on the current token, where something else is expected. -/
def unexpected (expected : String) : ParseM α := fun p =>
  (.error (.unexpectedToken expected ("'" ++ p.current.text ++ "'") p.current.location), p)

/-- Moves past a token of the given kind, or fails on any other. -/
def expect (k : Kind) : ParseM Unit := do
  if (← kind) = k then advance else unexpected ("'" ++ k.text ++ "'")

/-- The name of an identifier, which is moved past; fails on any other token. -/
def ident (expected : String) : ParseM String := do
  match ← kind with
  | .ident name =>
    advance
    return name
  | _ => unexpected expected

/-- Tries a construct. If it fails, the failure is noted, tokens are skipped up to a boundary, and
there is no result. Misuse is passed on. -/
def orResync (production : Production) (boundary : Boundary) (m : ParseM α) :
    ParseM (Option α) :=
  tryCatch (some <$> m) fun e => do
    if e.isRecoverable then
      change fun p => (p.note (.ignoredError production e)).resync boundary
      return none
    else throw e

/-- Repeats a step as long as it gives a result and moves the window on. -/
def many (step : ParseM (Option α)) : ParseM (List α) := fun p =>
  match step p with
  | (.error e, q) => (.error e, q)
  | (.ok none, q) => (.ok [], q)
  | (.ok (some a), q) =>
    if q.ahead < p.ahead then
      match many step q with
      | (.error e, r) => (.error e, r)
      | (.ok as, r) => (.ok (a :: as), r)
    else (.ok [a], q)
termination_by p => p.ahead

/-- Repeats a step that may leave its result out. -/
def manySome (step : ParseM (Option (Option α))) : ParseM (List α) :=
  List.filterMap id <$> many step

end ParseM

end CssSyntax
