import CssSyntax.Tree.Stylesheet

/-!
# Spelling

Which tokens spell a tree. The relations follow the grammar and say nothing about how it is read:
blanks may stand behind a term, a function, a medium and a priority and inside brackets, a descendant
combinator is a single blank, and terms that follow each other directly have nothing between them.
Any number of semicolons may stand around the declarations of a block, and blanks, `<!--` and `-->`
between the rules of a stylesheet.

Tokens that are not a spelling as a whole may still hold spellings: `Among` says that items are
spelled somewhere among the tokens, one behind the other and none inside another, and
`Stylesheet.Found` says the same of the parts of a stylesheet.
-/

namespace CssSyntax

/-- Tokens that are all blanks. -/
def Blanks (ts : List Token) : Prop :=
  ∀ t ∈ ts, t.kind.isWhitespace = true

/-- Items that are spelled one behind the other. -/
inductive Each {α : Type} (Spelled : α → List Token → Prop) : List α → List Token → Prop where
  | nil : Each Spelled [] []
  | cons {a : α} {as : List α} {ts us : List Token} :
    Spelled a ts → Each Spelled as us → Each Spelled (a :: as) (ts ++ us)

/-- Two things that are spelled one behind the other. -/
inductive Pair {α β : Type} (First : α → List Token → Prop) (Second : β → List Token → Prop) :
    α × β → List Token → Prop where
  | intro {a : α} {b : β} {ts us : List Token} :
    First a ts → Second b us → Pair First Second (a, b) (ts ++ us)

/-- The sign of a term, which may be missing. -/
inductive Sign.Spelled : Option Sign → List Token → Prop where
  | none : Spelled none []
  | minus {t : Token} : t.kind = .minus → Spelled (some .minus) [t]
  | plus {t : Token} : t.kind = .plus → Spelled (some .plus) [t]

/-- `[ '/' | ',' ] S*`, or nothing between terms that follow each other directly. -/
inductive Operator.Spelled : Operator → List Token → Prop where
  | slash {t : Token} {bs : List Token} : t.kind = .slash → Blanks bs → Spelled .slash (t :: bs)
  | comma {t : Token} {bs : List Token} : t.kind = .comma → Blanks bs → Spelled .comma (t :: bs)
  | space : Spelled .space []

mutual

/-- `[ '-' | '+' ]? [ value S* | function ]` -/
inductive Term.Spelled : Term → List Token → Prop where
  | value {sign : Option Sign} {v : Value} {t : Token} {ss bs : List Token} :
    Sign.Spelled sign ss → Value.ofKind? t.kind = some v → Blanks bs →
      Term.Spelled (.value sign v) (ss ++ t :: bs)
  | function {sign : Option Sign} {name : String} {terms : List Term} {operators : List Operator}
    {ss ts : List Token} :
    Sign.Spelled sign ss → Function.Spelled ⟨name, terms, operators⟩ ts →
      Term.Spelled (.function sign name terms operators) (ss ++ ts)

/-- `FUNCTION S* expression ')' S*` -/
inductive Function.Spelled : Function → List Token → Prop where
  | intro {name : String} {arguments : Expression} {f r : Token} {bs ts cs : List Token} :
    f.kind = .function name → Blanks bs → Expression.Spelled arguments ts →
      r.kind = .rparen → Blanks cs →
      Function.Spelled ⟨name, arguments⟩ (f :: (bs ++ (ts ++ r :: cs)))

/-- `term [ operator term ]*` -/
inductive Expression.Spelled : Expression → List Token → Prop where
  | single {t : Term} {ts : List Token} : Term.Spelled t ts → Expression.Spelled ⟨[t], []⟩ ts
  | cons {t : Term} {op : Operator} {terms : List Term} {operators : List Operator}
    {ts os us : List Token} :
    Term.Spelled t ts → Operator.Spelled op os → Expression.Spelled ⟨terms, operators⟩ us →
      Expression.Spelled ⟨t :: terms, op :: operators⟩ (ts ++ (os ++ us))

end

/-- `IMPORTANT S*`, or nothing. -/
inductive PrioritySpelled : Bool → List Token → Prop where
  | absent : PrioritySpelled false []
  | important {t : Token} {bs : List Token} :
    t.kind = .important → Blanks bs → PrioritySpelled true (t :: bs)

/-- `IDENT S* ':' S* expression [ IMPORTANT S* ]?` -/
inductive Declaration.Spelled : Declaration → List Token → Prop where
  | intro {property : String} {value : Expression} {important : Bool} {t c : Token}
    {bs cs ts ps : List Token} :
    t.kind = .ident property → Blanks bs → c.kind = .colon → Blanks cs → value.Spelled ts →
      PrioritySpelled important ps →
      Spelled ⟨property, value, important⟩ (t :: (bs ++ c :: (cs ++ (ts ++ ps))))

/-- The operator of an attribute condition. -/
inductive AttributeOperator.Spelled : AttributeOperator → Token → Prop where
  | equals {t : Token} : t.kind = .equals → Spelled .equals t
  | includes {t : Token} : t.kind = .includes → Spelled .includes t
  | dashMatch {t : Token} : t.kind = .dashMatch → Spelled .dashMatch t

/-- The value of an attribute condition, a name or a string. -/
inductive AttributeValueSpelled : String → Token → Prop where
  | ident {v : String} {t : Token} : t.kind = .ident v → AttributeValueSpelled v t
  | string {v : String} {quote : Char} {t : Token} :
    t.kind = .string v quote → AttributeValueSpelled v t

/-- `'[' S* [ IDENT S* [ [ '=' | '~=' | '|=' ] S* [ IDENT | STRING ] S* ]? ]? ']'` -/
inductive AttributeTest.Spelled : AttributeTest → List Token → Prop where
  | empty {l r : Token} {bs : List Token} :
    l.kind = .lbracket → Blanks bs → r.kind = .rbracket → Spelled {} (l :: (bs ++ [r]))
  | present {name : String} {l t r : Token} {bs cs : List Token} :
    l.kind = .lbracket → Blanks bs → t.kind = .ident name → Blanks cs → r.kind = .rbracket →
      Spelled { name := some name } (l :: (bs ++ t :: (cs ++ [r])))
  | compared {name value : String} {operator : AttributeOperator} {l t o v r : Token}
    {bs cs ds es : List Token} :
    l.kind = .lbracket → Blanks bs → t.kind = .ident name → Blanks cs → operator.Spelled o →
      Blanks ds → AttributeValueSpelled value v → Blanks es → r.kind = .rbracket →
      Spelled ⟨some name, some operator, some value⟩
        (l :: (bs ++ t :: (cs ++ o :: (ds ++ v :: (es ++ [r])))))

/-- `[ IDENT S* ]?` between the parentheses of a pseudo class. -/
inductive ArgumentSpelled : String → List Token → Prop where
  | absent : ArgumentSpelled "" []
  | ident {v : String} {t : Token} {bs : List Token} :
    t.kind = .ident v → Blanks bs → ArgumentSpelled v (t :: bs)

/-- `HASH`, `'.' IDENT`, an attribute condition, or `':' [ IDENT | FUNCTION S* [ IDENT S* ]? ')' ]` -/
inductive Simple.Spelled : Simple → List Token → Prop where
  | id {name : String} {t : Token} : t.kind = .hash name → Spelled (.id name) [t]
  | className {name : String} {d t : Token} :
    d.kind = .dot → t.kind = .ident name → Spelled (.className name) [d, t]
  | attr {test : AttributeTest} {ts : List Token} : test.Spelled ts → Spelled (.attr test) ts
  | pseudo {name : String} {c t : Token} :
    c.kind = .colon → t.kind = .ident name → Spelled (.pseudo name none) [c, t]
  | call {name value : String} {c f r : Token} {bs ts : List Token} :
    c.kind = .colon → f.kind = .function name → Blanks bs → ArgumentSpelled value ts →
      r.kind = .rparen → Spelled (.pseudo name (some value)) (c :: f :: (bs ++ (ts ++ [r])))

/-- `[ IDENT | '*' ]?` -/
inductive ElementName.Spelled : Option ElementName → List Token → Prop where
  | absent : Spelled none []
  | named {name : String} {t : Token} : t.kind = .ident name → Spelled (some (.named name)) [t]
  | universal {t : Token} : t.kind = .star → Spelled (some .universal) [t]

/-- An element name and conditions, not all of which may be missing. -/
inductive Compound.Spelled : Compound → List Token → Prop where
  | intro {element : Option ElementName} {conditions : List Simple} {ts us : List Token} :
    ElementName.Spelled element ts → Each Simple.Spelled conditions us →
      ¬ (element = none ∧ conditions = []) → Spelled ⟨element, conditions⟩ (ts ++ us)

/-- A single blank, or `[ '>' | '+' ] S*`. -/
inductive Combinator.Spelled : Combinator → List Token → Prop where
  | descendant {blanks : String} {t : Token} :
    t.kind = .whitespace blanks → Spelled .descendant [t]
  | child {t : Token} {bs : List Token} : t.kind = .greater → Blanks bs → Spelled .child (t :: bs)
  | sibling {t : Token} {bs : List Token} : t.kind = .plus → Blanks bs → Spelled .sibling (t :: bs)

/-- `compound [ combinator compound ]*` -/
inductive Selector.Spelled : Selector → List Token → Prop where
  | intro {first : Compound} {others : List (Combinator × Compound)} {ts us : List Token} :
    first.Spelled ts → Each (Pair Combinator.Spelled Compound.Spelled) others us →
      Spelled ⟨first :: others.map Prod.snd, others.map Prod.fst⟩ (ts ++ us)

/-- `',' S*` in front of an item. -/
inductive AfterComma {α : Type} (Spelled : α → List Token → Prop) : α → List Token → Prop where
  | intro {a : α} {c : Token} {bs ts : List Token} :
    c.kind = .comma → Blanks bs → Spelled a ts → AfterComma Spelled a (c :: (bs ++ ts))

/-- `item [ ',' S* item ]*` -/
inductive CommaSeparated {α : Type} (Spelled : α → List Token → Prop) :
    List α → List Token → Prop where
  | intro {a : α} {as : List α} {ts us : List Token} :
    Spelled a ts → Each (AfterComma Spelled) as us → CommaSeparated Spelled (a :: as) (ts ++ us)

/-- The uri of an import, a string or a url. -/
inductive UriSpelled : String → Token → Prop where
  | string {uri : String} {quote : Char} {t : Token} :
    t.kind = .string uri quote → UriSpelled uri t
  | url {uri : String} {t : Token} : t.kind = .url uri → UriSpelled uri t

/-- `IDENT S*` -/
inductive MediumSpelled : String → List Token → Prop where
  | intro {medium : String} {t : Token} {bs : List Token} :
    t.kind = .ident medium → Blanks bs → MediumSpelled medium (t :: bs)

/-- `[ medium [ ',' S* medium ]* ]?` -/
inductive MediaSpelled : List String → List Token → Prop where
  | absent : MediaSpelled [] []
  | named {media : List String} {ts : List Token} :
    CommaSeparated MediumSpelled media ts → MediaSpelled media ts

/-- `IMPORT S* [ STRING | URL ] S* media ';' S*` -/
inductive Import.Spelled : Import → List Token → Prop where
  | intro {uri : String} {media : List String} {i u s : Token} {bs cs ms ds : List Token} :
    i.kind = .atImport → Blanks bs → UriSpelled uri u → Blanks cs → MediaSpelled media ms →
      s.kind = .semicolon → Blanks ds →
      Spelled ⟨uri, media⟩ (i :: (bs ++ u :: (cs ++ (ms ++ s :: ds))))

/-- `[ ';' S* ]*` -/
inductive Semicolons : List Token → Prop where
  | nil : Semicolons []
  | cons {s : Token} {bs ts : List Token} :
    s.kind = .semicolon → Blanks bs → Semicolons ts → Semicolons (s :: (bs ++ ts))

/-- A further declaration of a block, with at least one semicolon in front of it. -/
inductive AfterSemicolons : Declaration → List Token → Prop where
  | intro {d : Declaration} {ss ts : List Token} :
    Semicolons ss → ss ≠ [] → d.Spelled ts → AfterSemicolons d (ss ++ ts)

/-- The declarations of a block, with any number of semicolons at either end. -/
inductive DeclarationsSpelled : List Declaration → List Token → Prop where
  | nil {ss : List Token} : Semicolons ss → DeclarationsSpelled [] ss
  | cons {d : Declaration} {ds : List Declaration} {ss ts us vs : List Token} :
    Semicolons ss → d.Spelled ts → Each AfterSemicolons ds us → Semicolons vs →
      DeclarationsSpelled (d :: ds) (ss ++ (ts ++ (us ++ vs)))

/-- `'{' S* declarations '}' S*` -/
inductive BlockSpelled : List Declaration → List Token → Prop where
  | intro {declarations : List Declaration} {l r : Token} {bs ts cs : List Token} :
    l.kind = .lcurly → Blanks bs → DeclarationsSpelled declarations ts → r.kind = .rcurly →
      Blanks cs → BlockSpelled declarations (l :: (bs ++ (ts ++ r :: cs)))

/-- `selector [ ',' S* selector ]* block` -/
inductive Ruleset.Spelled : Ruleset → List Token → Prop where
  | intro {selectors : List Selector} {declarations : List Declaration} {ts us : List Token} :
    CommaSeparated Selector.Spelled selectors ts → BlockSpelled declarations us →
      Spelled ⟨selectors, declarations⟩ (ts ++ us)

/-- `CHARSET ' ' STRING ';'` with a single space and double quotes, or nothing. -/
inductive CharsetSpelled : Option String → List Token → Prop where
  | absent : CharsetSpelled none []
  | named {name : String} {c w t s : Token} :
    c.kind = .atCharset → w.kind = .whitespace " " → t.kind = .string name '"' →
      s.kind = .semicolon → CharsetSpelled (some name) [c, w, t, s]

/-- Tokens that may stand between two rules. -/
def Fillers (ts : List Token) : Prop :=
  ∀ t ∈ ts, t.kind.isFiller = true

/-- A rule with anything behind it that may stand between two rules. -/
inductive BeforeFillers {α : Type} (Spelled : α → List Token → Prop) : α → List Token → Prop where
  | intro {a : α} {ts fs : List Token} :
    Spelled a ts → Fillers fs → BeforeFillers Spelled a (ts ++ fs)

/-- `charset? [S|CDO|CDC]* [ import [S|CDO|CDC]* ]* [ ruleset [S|CDO|CDC]* ]*` -/
inductive Stylesheet.Spelled : Stylesheet → List Token → Prop where
  | intro {charset : Option String} {imports : List Import} {rulesets : List Ruleset}
    {cs fs is rs : List Token} :
    CharsetSpelled charset cs → Fillers fs → Each (BeforeFillers Import.Spelled) imports is →
      Each (BeforeFillers Ruleset.Spelled) rulesets rs →
      Spelled ⟨charset, imports, rulesets⟩ (cs ++ (fs ++ (is ++ rs)))

/-! ### Spellings among other tokens -/

/-- Items whose spellings stand among the tokens in their order, with anything in between. -/
inductive Among {α : Type} (Spelled : α → List Token → Prop) : List α → List Token → Prop where
  | nil : Among Spelled [] []
  | drop {as : List α} {t : Token} {ts : List Token} :
    Among Spelled as ts → Among Spelled as (t :: ts)
  | keep {a : α} {as : List α} {ts us : List Token} :
    Spelled a ts → Among Spelled as us → Among Spelled (a :: as) (ts ++ us)

/-- A ruleset whose selectors are spelled and whose declarations stand behind them. -/
inductive Ruleset.Found : Ruleset → List Token → Prop where
  | intro {selectors : List Selector} {declarations : List Declaration} {ts us : List Token} :
    CommaSeparated Selector.Spelled selectors ts → Among Declaration.Spelled declarations us →
      Found ⟨selectors, declarations⟩ (ts ++ us)

/-- A stylesheet whose charset rule, imports and rulesets stand among the tokens in this order. -/
inductive Stylesheet.Found : Stylesheet → List Token → Prop where
  | intro {charset : Option String} {imports : List Import} {rulesets : List Ruleset}
    {ls cs is rs : List Token} :
    (∀ name ∈ charset, CharsetSpelled (some name) cs) → Among Import.Spelled imports is →
      Among Ruleset.Found rulesets rs →
      Found ⟨charset, imports, rulesets⟩ (ls ++ (cs ++ (is ++ rs)))

end CssSyntax
