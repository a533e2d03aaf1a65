import CssSyntax.Recovery

/-!
# Nesting

Lists of tokens whose brackets match. Recovery reads across such a list without losing count of the
brackets that are open around it.
-/

namespace CssSyntax

/-- Lists of tokens in which every bracket is closed in the right order; the end of the input stands
in none of them. -/
inductive Nested : List Token → Prop where
  | nil : Nested []
  /-- A token that is no bracket, in front of a nested list. -/
  | cons {t : Token} {ts : List Token} :
    t.kind.opens? = none → t.kind.closes? = none → t.kind ≠ .eof → Nested ts → Nested (t :: ts)
  /-- A nested list in brackets, in front of another one. -/
  | enclose {o c : Token} {b : Bracket} {inner ts : List Token} :
    o.kind.opens? = some b → c.kind.closes? = some b → Nested inner → Nested ts →
      Nested (o :: inner ++ c :: ts)

/-- The tokens of a list that stand outside all brackets, where `brackets` are those open in front of
the list; a bracket that opens there is one of them. -/
def outsideWithin (brackets : List Bracket) : List Token → List Token
  | [] => []
  | t :: ts =>
    let rest := outsideWithin (Bracket.track brackets t.kind) ts
    if brackets = [] then t :: rest else rest

/-- The tokens of a list that stand outside all of its brackets. -/
def outside (ts : List Token) : List Token :=
  outsideWithin [] ts

end CssSyntax
