import CssSyntax.Token

/-!
# Values

The value of a declaration is an expression: terms joined by operators. A term is a single value or a
function whose arguments form an expression again.
-/

namespace CssSyntax

/-- The operator between two terms. -/
inductive Operator where
  | slash
  | comma
  /-- Terms that follow each other directly. -/
  | space
deriving DecidableEq, Repr

/-- The text of an operator. -/
def Operator.text : Operator → String
  | slash => "/"
  | comma => ","
  | space => " "

/-- The sign in front of a term. -/
inductive Sign where
  | minus
  | plus
deriving DecidableEq, Repr

/-- The text of a sign. -/
def Sign.text : Sign → String
  | minus => "-"
  | plus => "+"

/-- A value that a single token holds. -/
inductive Value where
  | numeric (text : String) (measure : Measure)
  | string (text : String)
  | ident (name : String)
  | url (text : String)
  /-- The digits of a colour, without the `#`. -/
  | color (digits : String)
deriving DecidableEq, Repr

namespace Value

/-- The text of a value. -/
def text : Value → String
  | numeric t _ => t
  | string t => t
  | ident t => t
  | url t => t
  | color t => t

/-- The unit of a value; percentages and font-relative lengths have one too. -/
def unit? : Value → Option String
  | numeric _ .number => none
  | numeric _ m => some m.symbol
  | _ => none

/-- The value that a token holds. -/
def ofKind? : Kind → Option Value
  | .numeric v m => some (.numeric v m)
  | .string v _ => some (.string v)
  | .ident v => some (.ident v)
  | .url v => some (.url v)
  | .hash v => some (.color v)
  | _ => none

end Value

/-- A term of an expression: a value, or a function with the terms of its arguments and the operators
between them. -/
inductive Term where
  | value (sign : Option Sign) (value : Value)
  | function (sign : Option Sign) (name : String) (terms : List Term) (operators : List Operator)
deriving Repr

mutual

/-- Decides whether two terms are equal. -/
def Term.decEq : (a b : Term) → Decidable (a = b)
  | .value s v, .value s' v' =>
    if h : s = s' ∧ v = v' then .isTrue (by rw [h.1, h.2])
    else .isFalse fun e => by cases e; exact h ⟨rfl, rfl⟩
  | .function s n ts os, .function s' n' ts' os' =>
    match Term.decEqList ts ts' with
    | .isTrue ht =>
      if h : s = s' ∧ n = n' ∧ os = os' then .isTrue (by rw [h.1, h.2.1, ht, h.2.2])
      else .isFalse fun e => by cases e; exact h ⟨rfl, rfl, rfl⟩
    | .isFalse ht => .isFalse fun e => by cases e; exact ht rfl
  | .value _ _, .function _ _ _ _ => .isFalse nofun
  | .function _ _ _ _, .value _ _ => .isFalse nofun

/-- Decides whether two lists of terms are equal. -/
def Term.decEqList : (as bs : List Term) → Decidable (as = bs)
  | [], [] => .isTrue rfl
  | [], _ :: _ => .isFalse nofun
  | _ :: _, [] => .isFalse nofun
  | a :: as, b :: bs =>
    match Term.decEq a b, Term.decEqList as bs with
    | .isTrue h, .isTrue hs => .isTrue (by rw [h, hs])
    | .isFalse h, _ => .isFalse fun e => h (List.cons.inj e).1
    | _, .isFalse hs => .isFalse fun e => hs (List.cons.inj e).2

end

instance : DecidableEq Term :=
  Term.decEq

/-- Terms joined by operators; the operator at some position stands behind the term there. -/
structure Expression where
  terms : List Term
  operators : List Operator
deriving DecidableEq, Repr

/-- A function and its arguments. -/
structure Function where
  name : String
  arguments : Expression
deriving DecidableEq, Repr

/-- A function as a term. -/
def Function.toTerm (f : Function) (sign : Option Sign) : Term :=
  .function sign f.name f.arguments.terms f.arguments.operators

end CssSyntax
