import CssSyntax.Proofs.Totality
import CssSyntax.Tree.Content

/-!
# Where the strings of trees come from

Tokens give their texts to a tree in the order in which they are read, each token at most once:
`Gives ts ss` says that the strings `ss` are the texts of some of the tokens `ts`, in their order.
Every spelling gives the strings of its tree. So do tokens among which a tree is found, whatever
stands in between, and that is how stylesheets are read (`Grammar.stylesheet_run`).
-/

namespace CssSyntax

/-- The texts that tokens carry. -/
def values (ts : List Token) : List String :=
  ts.filterMap (·.kind.value?)

/-- The values of two lists are those of the first and then those of the second. -/
lemma values_append (ts us : List Token) : values (ts ++ us) = values ts ++ values us :=
  List.filterMap_append

/-- Strings that are texts of tokens in their order, no token giving two of them. -/
def Gives (ts : List Token) (ss : List String) : Prop :=
  ss.Sublist (values ts)

namespace Gives

variable {ts us : List Token} {ss rs : List String}

/-- All tokens give no strings. -/
lemma nothing (ts : List Token) : Gives ts [] :=
  List.nil_sublist _

/-- Two lists give what they give one behind the other. -/
lemma append (h : Gives ts ss) (h' : Gives us rs) : Gives (ts ++ us) (ss ++ rs) := by
  unfold Gives
  rw [values_append]
  exact List.Sublist.append h h'

/-- Tokens in front take nothing from what is given. -/
lemma behind (ts : List Token) (h : Gives us rs) : Gives (ts ++ us) rs :=
  (nothing ts).append h

/-- Tokens behind take nothing from what is given. -/
lemma inFrontOf (h : Gives ts ss) (us : List Token) : Gives (ts ++ us) ss := by
  have h' : Gives (ts ++ us) (ss ++ []) := h.append (nothing us)
  rwa [List.append_nil] at h'

/-- A token that is skipped takes nothing from what is given. -/
lemma skip (t : Token) (h : Gives ts ss) : Gives (t :: ts) ss :=
  h.behind [t]

/-- A token gives its value in front of what is given behind it. -/
lemma cons {t : Token} {v : String} (ht : t.kind.value? = some v) (h : Gives ts ss) :
    Gives (t :: ts) (v :: ss) := by
  have hv : values (t :: ts) = v :: values ts := List.filterMap_cons_some ht
  unfold Gives
  rw [hv]
  exact List.Sublist.cons_cons v h

end Gives

/-! ### Sequences -/

/-- Items among tokens give their strings in their order if each of them does. -/
lemma Among.gives {α : Type} {S : α → List Token → Prop} {f : α → List String} {as : List α}
    {ts : List Token} (h : Among S as ts) (hs : ∀ a ts, S a ts → Gives ts (f a)) :
    Gives ts (as.flatMap f) := by
  induction h with
  | nil => exact .nothing []
  | drop _ ih => exact ih.skip _
  | keep ha _ ih =>
    rw [List.flatMap_cons]
    exact (hs _ _ ha).append ih

/-- Items that are spelled one behind the other are found among their tokens. -/
lemma Each.among {α : Type} {S : α → List Token → Prop} {as : List α} {ts : List Token}
    (h : Each S as ts) : Among S as ts := by
  induction h with
  | nil => exact .nil
  | cons ha _ ih => exact .keep ha ih

/-- Items between commas give their strings in their order if each of them does. -/
lemma CommaSeparated.gives {α : Type} {S : α → List Token → Prop} {f : α → List String}
    {as : List α} {ts : List Token} (h : CommaSeparated S as ts)
    (hs : ∀ a ts, S a ts → Gives ts (f a)) : Gives ts (as.flatMap f) := by
  cases h with
  | intro ha has =>
    rw [List.flatMap_cons]
    refine (hs _ _ ha).append (has.among.gives ?_)
    intro a us hus
    cases hus with
    | intro _ _ ha => exact .skip _ (.behind _ (hs _ _ ha))

/-! ### Values -/

/-- The value of a term is that of its token. -/
lemma Value.value?_of_ofKind? {k : Kind} {v : Value} (h : Value.ofKind? k = some v) :
    k.value? = some v.text := by
  cases k <;> cases h <;> rfl

mutual

/-- A term gives its strings. -/
lemma Term.Spelled.gives : ∀ {t : Term} {ts : List Token}, t.Spelled ts → Gives ts t.strings
  | _, _, .value _ hv _ => by
    simp only [Term.strings]
    exact .behind _ (.cons (Value.value?_of_ofKind? hv) (.nothing _))
  | _, _, .function _ hf => by
    simp only [Term.strings]
    exact .behind _ hf.gives

/-- A function gives its name and then the strings of its arguments. -/
lemma Function.Spelled.gives :
    ∀ {f : Function} {ts : List Token}, f.Spelled ts → Gives ts (f.name :: f.arguments.strings)
  | _, _, .intro hf _ he _ _ =>
    .cons (congrArg Kind.value? hf) (.behind _ (he.gives.inFrontOf _))

/-- An expression gives the strings of its terms in their order. -/
lemma Expression.Spelled.gives :
    ∀ {e : Expression} {ts : List Token}, e.Spelled ts → Gives ts e.strings
  | _, _, .single ht => by
    simp only [Expression.strings, Term.stringsList, List.append_nil]
    exact ht.gives
  | _, _, .cons ht _ he => by
    simp only [Expression.strings, Term.stringsList]
    exact ht.gives.append (.behind _ he.gives)

end

/-- A declaration gives its strings. -/
lemma Declaration.Spelled.gives {d : Declaration} {ts : List Token} (h : d.Spelled ts) :
    Gives ts d.strings := by
  cases h with
  | intro ht _ _ _ he _ =>
    refine .cons (congrArg Kind.value? ht) (.behind _ (.skip _ (.behind _ ?_)))
    exact he.gives.inFrontOf _

/-! ### Selectors -/

/-- The value of a condition is that of its token. -/
lemma AttributeValueSpelled.value? {v : String} {t : Token} (h : AttributeValueSpelled v t) :
    t.kind.value? = some v := by
  cases h with
  | ident h | string h => exact congrArg Kind.value? h

/-- An attribute condition gives its name and its value. -/
lemma AttributeTest.Spelled.gives {test : AttributeTest} {ts : List Token} (h : test.Spelled ts) :
    Gives ts (test.name.toList ++ test.value.toList) := by
  cases h with
  | empty => exact .nothing _
  | present _ _ ht _ _ =>
    exact .skip _ (.behind _ (.cons (congrArg Kind.value? ht) (.nothing _)))
  | compared _ _ ht _ _ _ hv _ _ =>
    refine .skip _ (.behind _ (.cons (congrArg Kind.value? ht) (.behind _ (.skip _ ?_))))
    exact .behind _ (.cons hv.value? (.nothing _))

/-- The argument of a pseudo class is given unless it is empty. -/
lemma ArgumentSpelled.gives {v : String} {ts : List Token} (h : ArgumentSpelled v ts) :
    Gives ts ([v].filter (· ≠ "")) := by
  cases h with
  | absent => exact .nothing []
  | @ident _ t bs ht _ =>
    have hv : Gives (t :: bs) [v] := .cons (congrArg Kind.value? ht) (.nothing bs)
    exact List.filter_sublist.trans hv

/-- A condition gives its strings. -/
lemma Simple.Spelled.gives {s : Simple} {ts : List Token} (h : s.Spelled ts) :
    Gives ts s.strings := by
  cases h with
  | id ht => exact .cons (congrArg Kind.value? ht) (.nothing [])
  | className _ ht | pseudo _ ht => exact .skip _ (.cons (congrArg Kind.value? ht) (.nothing []))
  | attr h => exact h.gives
  | call _ hf _ ha _ =>
    exact .skip _ (.cons (congrArg Kind.value? hf) (.behind _ (ha.gives.inFrontOf _)))

/-- The name of an element is given, if there is one. -/
lemma ElementName.Spelled.gives {element : Option ElementName} {ts : List Token}
    (h : ElementName.Spelled element ts) :
    Gives ts (element.toList.flatMap ElementName.strings) := by
  cases h with
  | absent => exact .nothing []
  | named ht => exact .cons (congrArg Kind.value? ht) (.nothing [])
  | universal => exact .nothing _

/-- A compound gives its strings. -/
lemma Compound.Spelled.gives {c : Compound} {ts : List Token} (h : c.Spelled ts) :
    Gives ts c.strings := by
  cases h with
  | intro he hc _ => exact he.gives.append (hc.among.gives fun _ _ hs => hs.gives)

/-- A selector gives its strings. -/
lemma Selector.Spelled.gives {s : Selector} {ts : List Token} (h : s.Spelled ts) :
    Gives ts s.strings := by
  cases h with
  | intro hfirst hothers =>
    have hrest := hothers.among.gives (f := fun x => x.2.strings) fun x us hx => by
      cases hx with
      | intro _ hc => exact .behind _ hc.gives
    unfold Selector.strings
    rw [List.flatMap_cons, List.flatMap_map]
    exact hfirst.gives.append hrest

/-! ### Stylesheets -/

/-- Media give their names. -/
lemma MediaSpelled.gives {media : List String} {ts : List Token} (h : MediaSpelled media ts) :
    Gives ts media := by
  cases h with
  | absent => exact .nothing []
  | named hm =>
    have hmedia := hm.gives (f := fun medium => [medium]) fun medium us hus => by
      cases hus with
      | intro ht _ => exact .cons (congrArg Kind.value? ht) (.nothing _)
    rwa [List.flatMap_singleton'] at hmedia

/-- The uri of an import is the value of its token. -/
lemma UriSpelled.value? {uri : String} {t : Token} (h : UriSpelled uri t) :
    t.kind.value? = some uri := by
  cases h with
  | string h | url h => exact congrArg Kind.value? h

/-- An import gives its strings. -/
lemma Import.Spelled.gives {i : Import} {ts : List Token} (h : i.Spelled ts) :
    Gives ts i.strings := by
  cases h with
  | intro _ _ hu _ hm _ _ =>
    refine .skip _ (.behind _ (.cons hu.value? (.behind _ ?_)))
    exact hm.gives.inFrontOf _

/-- A charset gives its name, if there is one. -/
lemma CharsetSpelled.gives {charset : Option String} {ts : List Token}
    (h : CharsetSpelled charset ts) : Gives ts charset.toList := by
  cases h with
  | absent => exact .nothing []
  | named _ _ ht _ =>
    exact .skip _ (.skip _ (.cons (congrArg Kind.value? ht) (.nothing _)))

/-- A ruleset gives its strings, whatever is dropped between its declarations. -/
lemma Ruleset.Found.gives {r : Ruleset} {ts : List Token} (h : r.Found ts) :
    Gives ts r.strings := by
  cases h with
  | intro hs hd =>
    exact (hs.gives fun _ _ hs => hs.gives).append (hd.gives fun _ _ hd => hd.gives)

/-- A stylesheet gives its strings, whatever is dropped between its rules. -/
lemma Stylesheet.Found.gives {s : Stylesheet} {ts : List Token} (h : s.Found ts) :
    Gives ts s.strings := by
  cases h with
  | @intro charset _ _ _ cs _ _ hc hi hr =>
    have hcharset : Gives cs charset.toList := by
      cases charset with
      | none => exact .nothing _
      | some name => exact (hc name rfl).gives
    have himports := hi.gives fun _ _ hi => hi.gives
    have hrulesets := hr.gives fun _ _ hr => hr.gives
    unfold Stylesheet.strings
    rw [List.append_assoc]
    exact .behind _ (hcharset.append (himports.append hrulesets))

/-- What can be read of a list carries no other texts than the list. -/
lemma Source.values_unread (ts : List Token) :
    (values (Source.tokens ts).unread).Sublist (values ts) := by
  induction ts with
  | nil =>
    rw [Source.unread_nil]
    exact .refl _
  | cons t ts ih =>
    rw [Source.unread_cons]
    split
    · exact List.Sublist.filterMap _ (List.Sublist.cons_cons t (List.nil_sublist ts))
    · show (values ([t] ++ (Source.tokens ts).unread)).Sublist (values ([t] ++ ts))
      rw [values_append, values_append]
      exact List.Sublist.append (.refl _) ih

/-- The strings of a stylesheet are texts of the tokens that it is read from: in the order of the
tokens, and each of them the text of a token of its own. -/
theorem tree_strings_from_tokens (ts : List Token) (config : Config) :
    ∃ s, (parseSource (.tokens ts) config).result = .ok s ∧ s.strings.Sublist (values ts) := by
  let p := (Parser.ofSource (.tokens ts) config).note (.reading config.source)
  obtain ⟨s, q, he⟩ := Grammar.stylesheet_total p
  obtain ⟨us, hr, -, hs, -⟩ := (Grammar.stylesheet_run p).of_ok he
  refine ⟨s, Parser.report_of_ok (m := Grammar.document) he, ?_⟩
  have hu : (Source.tokens ts).unread = us ++ q.unread :=
    (Parser.unread_ofSource _ config).symm.trans hr.unread
  have hstrings : Gives (Source.tokens ts).unread s.strings := by
    rw [hu]
    exact hs.gives.inFrontOf _
  exact hstrings.trans (Source.values_unread ts)

end CssSyntax
