import CssSyntax.Parser

/-!
# Recovery

After an error the parser skips tokens up to a boundary. Brackets that open on the way have to be
closed before a boundary counts, and a closing bracket that matches none of them is ignored. The end
of the input always ends the search.
-/

namespace CssSyntax

/-- The pairs of brackets. -/
inductive Bracket where
  | paren
  | square
  | curly
deriving DecidableEq, Repr

namespace Kind

/-- The bracket that a token opens; a function opens a parenthesis. -/
def opens? : Kind → Option Bracket
  | lparen | function _ => some .paren
  | lbracket => some .square
  | lcurly => some .curly
  | _ => none

/-- The bracket that a token closes. -/
def closes? : Kind → Option Bracket
  | rparen => some .paren
  | rbracket => some .square
  | rcurly => some .curly
  | _ => none

end Kind

/-- The open brackets behind a token, innermost first. -/
def Bracket.track (brackets : List Bracket) (k : Kind) : List Bracket :=
  match k.opens?, k.closes? with
  | some b, _ => b :: brackets
  | none, some b => if brackets.head? = some b then brackets.tail else brackets
  | none, none => brackets

/-- What to do with a token that is met during recovery. -/
inductive Verdict where
  | stopBefore
  | stopBehind
  | skip
deriving DecidableEq, Repr

/-- Whether a token ends the search for a boundary inside the given open brackets. A block is
complete with the brace that closes the only bracket left. -/
def Boundary.verdict (boundary : Boundary) (brackets : List Bracket) (k : Kind) : Verdict :=
  match boundary with
  | .declaration =>
    if brackets = [] then
      if k = .semicolon then .stopBehind
      else if k = .rcurly then .stopBefore
      else .skip
    else .skip
  | .block => if brackets = [.curly] ∧ k = .rcurly then .stopBehind else .skip

namespace Parser

/-- Skips tokens up to a boundary, inside the given open brackets. -/
def resyncWithin (boundary : Boundary) (brackets : List Bracket) (p : Parser) : Parser :=
  if h : p.kind = .eof then p
  else
    match boundary.verdict brackets p.kind with
    | .stopBefore => p
    | .stopBehind => p.advance
    | .skip =>
      have := ahead_advance_lt h
      resyncWithin boundary (Bracket.track brackets p.kind) p.advance
termination_by p.ahead

/-- Skips tokens up to a boundary. -/
def resync (boundary : Boundary) (p : Parser) : Parser :=
  (p.note (.resyncing boundary p.current)).resyncWithin boundary []

/-- Skips the rest of an at-rule inside the given number of square brackets. The rule ends behind a
`;` outside of them, or behind the `]` that closes the first; other brackets do not count. -/
def skipAtRuleWithin (depth : Nat) (p : Parser) : Parser :=
  if h : p.kind = .eof then p
  else
    have := ahead_advance_lt h
    match p.kind with
    | .lbracket => skipAtRuleWithin (depth + 1) p.advance
    | .rbracket => if depth = 1 then p.advance else skipAtRuleWithin (depth - 1) p.advance
    | .semicolon => if depth = 0 then p.advance else skipAtRuleWithin depth p.advance
    | _ => skipAtRuleWithin depth p.advance
termination_by p.ahead

/-- Skips an at-rule from its keyword on. -/
def skipAtRule (p : Parser) : Parser :=
  (p.note (.tried .unknownAtRule)).advance.skipAtRuleWithin 0

end Parser

end CssSyntax
