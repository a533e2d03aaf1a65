import CssSyntax.Proofs.Expression
import CssSyntax.Proofs.Selector
import CssSyntax.Grammar.Stylesheet
import CssSyntax.Tree.WellFormed

/-!
# Runs of blocks and stylesheets

The parts that are kept of a stylesheet are spelled by tokens that are read for them, whatever is
dropped between them (`Stylesheet.Found`). What is spelled is well formed, and so is what is kept.
The items of every list take at least one token, also those that are dropped: recovery moves on
unless it starts on the brace that ends a block, and no item starts there.
-/

namespace CssSyntax

/-! ### What is spelled is well formed -/

mutual

/-- A term that is spelled is well-formed. -/
lemma Term.Spelled.wellFormed : ∀ {t : Term} {ts : List Token}, t.Spelled ts → t.WellFormed
  | _, _, .value _ _ _ => .value _ _
  | _, _, .function _ hf => .function _ _ hf.wellFormed.terms hf.wellFormed.operators

/-- The arguments of a function that is spelled are well-formed. -/
lemma Function.Spelled.wellFormed :
    ∀ {f : Function} {ts : List Token}, f.Spelled ts → f.arguments.WellFormed
  | _, _, .intro _ _ he _ _ => he.wellFormed

/-- An expression that is spelled is well-formed. -/
lemma Expression.Spelled.wellFormed :
    ∀ {e : Expression} {ts : List Token}, e.Spelled ts → e.WellFormed
  | _, _, .single ht => ⟨List.forall_mem_singleton.mpr ht.wellFormed, rfl⟩
  | _, _, .cons ht _ he =>
    ⟨List.forall_mem_cons.mpr ⟨ht.wellFormed, he.wellFormed.terms⟩,
      congrArg Nat.succ he.wellFormed.operators⟩

end

/-- A declaration that is spelled is well-formed. -/
lemma Declaration.Spelled.wellFormed {d : Declaration} {ts : List Token} (h : d.Spelled ts) :
    d.WellFormed := by
  cases h with
  | intro _ _ _ _ he _ => exact he.wellFormed

/-- An attribute condition that is spelled is well-formed. -/
lemma AttributeTest.Spelled.wellFormed {test : AttributeTest} {ts : List Token}
    (h : test.Spelled ts) : test.WellFormed := by
  cases h with
  | empty => exact .empty
  | present => exact .present _
  | compared => exact .compared _ _ _

/-- A condition that is spelled is well-formed. -/
lemma Simple.Spelled.wellFormed {s : Simple} {ts : List Token} (h : s.Spelled ts) :
    s.WellFormed := by
  cases h with
  | attr h => exact h.wellFormed
  | _ => exact trivial

/-- A compound that is spelled is well-formed. -/
lemma Compound.Spelled.wellFormed {c : Compound} {ts : List Token} (h : c.Spelled ts) :
    c.WellFormed := by
  cases h with
  | intro _ hc hne =>
    refine ⟨fun he hnil => hne ⟨he, hnil⟩, ?_⟩
    exact hc.forall_mem fun _ _ hs => hs.wellFormed

/-- A selector that is spelled is well-formed. -/
lemma Selector.Spelled.wellFormed {s : Selector} {ts : List Token} (h : s.Spelled ts) :
    s.WellFormed := by
  cases h with
  | @intro first others _ _ hfirst hothers =>
    have ho : ∀ x ∈ others, x.2.WellFormed := by
      apply hothers.forall_mem (P := fun x => x.2.WellFormed)
      intro x us hx
      cases hx with
      | intro _ hc => exact hc.wellFormed
    refine ⟨List.forall_mem_cons.mpr ⟨hfirst.wellFormed, ?_⟩, ?_⟩
    · intro c hc
      obtain ⟨x, hx, rfl⟩ := List.mem_map.mp hc
      exact ho x hx
    · simp only [List.length_cons, List.length_map]

/-- What follows from the spelling of an item holds of all items between commas. -/
lemma CommaSeparated.forall_mem {α : Type} {S : α → List Token → Prop} {P : α → Prop}
    {as : List α} {ts : List Token} (h : CommaSeparated S as ts) (hp : ∀ a ts, S a ts → P a) :
    ∀ a ∈ as, P a := by
  cases h with
  | intro ha has =>
    refine List.forall_mem_cons.mpr ⟨hp _ _ ha, has.forall_mem ?_⟩
    intro a us hus
    cases hus with
    | intro _ _ ha => exact hp _ _ ha

/-- A compound takes a token. -/
lemma Compound.Spelled.ne_nil {c : Compound} {ts : List Token} (h : c.Spelled ts) : ts ≠ [] := by
  cases h with
  | intro he hc hne =>
    cases he with
    | absent =>
      cases hc with
      | nil => exact absurd ⟨rfl, rfl⟩ hne
      | cons hs _ => exact List.append_ne_nil_of_left_ne_nil hs.ne_nil _
    | _ => exact List.cons_ne_nil _ _

/-- A selector takes a token. -/
lemma Selector.Spelled.ne_nil {s : Selector} {ts : List Token} (h : s.Spelled ts) : ts ≠ [] := by
  cases h with
  | intro hfirst _ => exact List.append_ne_nil_of_left_ne_nil hfirst.ne_nil _

/-- A declaration takes a token. -/
lemma Declaration.Spelled.ne_nil {d : Declaration} {ts : List Token} (h : d.Spelled ts) :
    ts ≠ [] := by
  cases h
  exact List.cons_ne_nil _ _

/-- An import takes a token. -/
lemma Import.Spelled.ne_nil {i : Import} {ts : List Token} (h : i.Spelled ts) : ts ≠ [] := by
  cases h
  exact List.cons_ne_nil _ _

/-- Uris of imports are inner tokens. -/
lemma UriSpelled.inner {uri : String} {t : Token} (h : UriSpelled uri t) : t.kind.Inner := by
  cases h with
  | string h | url h => exact .of_eq h rfl

/-! ### Spellings among other tokens -/

namespace Among

variable {α : Type} {S : α → List Token → Prop} {as bs : List α} {ts us : List Token}

/-- No items are found among any tokens. -/
lemma nothing (ts : List Token) : Among S [] ts := by
  induction ts with
  | nil => exact .nil
  | cons _ _ ih => exact .drop ih

/-- Items are found behind further tokens too. -/
lemma behind (us : List Token) (h : Among S as ts) : Among S as (us ++ ts) := by
  induction us with
  | nil => exact h
  | cons _ _ ih => exact .drop ih

/-- Items are found among tokens one after the other. -/
lemma append (h : Among S as ts) (h' : Among S bs us) : Among S (as ++ bs) (ts ++ us) := by
  induction h with
  | nil => exact h'
  | drop _ ih => exact .drop ih
  | keep ha _ ih =>
    rw [List.append_assoc]
    exact .keep ha ih

/-- Items are found in front of further tokens too. -/
lemma inFrontOf (h : Among S as ts) (us : List Token) : Among S as (ts ++ us) := by
  have h' : Among S (as ++ []) (ts ++ us) := h.append (.nothing us)
  rwa [List.append_nil] at h'

/-- An item is found among the tokens that spell it. -/
lemma single {a : α} (h : S a ts) : Among S [a] ts := by
  have h' := Among.keep h (.nothing [])
  rwa [List.append_nil] at h'

/-- The results of a repetition, without those that are left out. -/
lemma of_each {rs : List (Option α)} (h : Each (fun r ts => Among S r.toList ts) rs ts) :
    Among S (rs.filterMap id) ts := by
  induction h with
  | nil => exact .nil
  | @cons r _ _ _ hr _ ih =>
    cases r with
    | none => exact ih.behind _
    | some a => exact hr.append ih

/-- What follows from the spelling of an item holds of all that are found. -/
lemma forall_mem {P : α → Prop} (h : Among S as ts) (hp : ∀ a ts, S a ts → P a) :
    ∀ a ∈ as, P a := by
  induction h with
  | nil => nofun
  | drop _ ih => exact ih
  | keep ha _ ih => exact List.forall_mem_cons.mpr ⟨hp _ _ ha, ih⟩

end Among

/-- A ruleset that is found is well-formed. -/
lemma Ruleset.Found.wellFormed {r : Ruleset} {ts : List Token} (h : r.Found ts) :
    r.WellFormed := by
  cases h with
  | intro hs hd =>
    refine ⟨?_, hs.forall_mem fun _ _ hs => hs.wellFormed, hd.forall_mem fun _ _ hd => hd.wellFormed⟩
    cases hs
    exact List.cons_ne_nil _ _

/-- A stylesheet that is found is well-formed. -/
lemma Stylesheet.Found.wellFormed {s : Stylesheet} {ts : List Token} (h : s.Found ts) :
    s.WellFormed := by
  cases h with
  | intro _ _ hr => exact hr.forall_mem fun _ _ hr => hr.wellFormed

/-! ### Where recovery starts -/

/-- Only a closing brace stops the search for the end of a declaration in front of itself. -/
lemma verdict_declaration_ne {k : Kind} (h : k ≠ .rcurly) :
    Boundary.declaration.verdict [] k ≠ .stopBefore := by
  simp only [Boundary.verdict, if_true, if_neg h]
  split <;> nofun

/-- The search for the end of a block never stops in front of a token. -/
lemma verdict_block_ne (brackets : List Bracket) (k : Kind) :
    Boundary.block.verdict brackets k ≠ .stopBefore := by
  simp only [Boundary.verdict]
  split <;> nofun

namespace ParseM

variable {α : Type} {K : Kind → Prop}

/-- A repetition that leaves results out finds the others among what it reads. -/
lemma Run.someItems {S : α → List Token → Prop} {E : List Token → Parser → Prop}
    {step : ParseM (Option (Option α))}
    (h : ∀ p, step.Run K p (Step (fun ts r _ => Among S r.toList ts) E)) (p : Parser) :
    (manySome step).Run K p fun ts as q => Among S as ts ∧ ∃ vs, E vs q := by
  apply Run.map
  apply (Run.items (I := fun r ts => Among S r.toList ts) h p).imp
  intro ts rs q _ hrs
  obtain ⟨us, vs, rfl, hus, hE⟩ := hrs
  exact ⟨(Among.of_each hus).inFrontOf vs, vs, hE⟩

/-- Moving past blanks reads tokens of some kind. -/
lemma Run.advanceBlanks_any (p : Parser) :
    ParseM.advanceBlanks.Run Kind.Any p fun _ _ _ => True := by
  obtain ⟨ts, hr⟩ := p.advance_reads
  apply Run.change hr fun _ _ => trivial
  apply (Run.skipBlanks_inner p.advance).any.imp
  intro _ _ _ _ _
  trivial

end ParseM

namespace Grammar

open ParseM

/-! ### Blocks -/

/-- A declaration is read as it is spelled, or tokens are skipped instead. -/
lemma declaration_run (p : Parser) :
    declaration.Run Kind.Any p (OrDropped p .declaration (DeclarationRead p)) := by
  apply Run.enter
  exact (property_run (p.note _)).orResync .declaration .declaration

/-- An item of declarations takes a token, and its declaration is found among what it takes. -/
lemma declarationItem_run {p : Parser} (hne : p.kind ≠ .eof) (hr : p.kind ≠ .rcurly) :
    declarationItem.Run Kind.Any p fun ts r _ =>
      ts ≠ [] ∧ Among Declaration.Spelled r.toList ts := by
  apply Run.kind
  split
  · next name h =>
    apply (declaration_run p).imp
    intro ts r q _ hd
    cases r with
    | none => exact ⟨hd hne (verdict_declaration_ne hr), .nothing ts⟩
    | some d => exact ⟨hd.1.ne_nil, .single hd.1⟩
  · obtain ⟨ts, hts, hn⟩ := Parser.resync_reads .declaration (p.note (.ignoredDeclaration p.current))
    apply Run.change hts.note_trans fun _ _ => trivial
    refine Run.pure ⟨?_, .nothing _⟩
    rw [List.append_nil]
    exact hn hne (verdict_declaration_ne hr)

/-- The items of a list take tokens up to the end of the input. -/
lemma listItem_run (p : Parser) :
    listItem?.Run Kind.Any p
      (Step (fun ts r _ => Among Declaration.Spelled r.toList ts) (fun _ q => q.kind = .eof)) := by
  apply (Run.skipBlanks_inner p).any.bind
  intro bs _ q _ _
  apply Run.kind
  split
  · next h => exact Run.pure h
  · next h =>
    apply Run.advance (by rw [h]; nofun) trivial
    exact Run.pure ⟨List.append_ne_nil_of_right_ne_nil bs (List.cons_ne_nil _ _), .nothing _⟩
  · next h =>
    apply Run.advance (by rw [h]; nofun) trivial
    exact Run.pure ⟨List.append_ne_nil_of_right_ne_nil bs (List.cons_ne_nil _ _), .nothing _⟩
  · next he _ hr =>
    apply (declarationItem_run he hr).bind_pure
    intro ts r s _ hs
    exact ⟨List.append_ne_nil_of_right_ne_nil bs hs.1, hs.2.behind bs⟩

/-- All declarations of a list are found among its tokens, which are read up to the end of the
input. -/
lemma declarations_run (p : Parser) :
    declarations.Run Kind.Any p fun ts ds q =>
      Among Declaration.Spelled ds ts ∧ q.kind = .eof := by
  apply Run.enter
  apply (Run.someItems listItem_run _).imp
  intro ts ds q _ h
  obtain ⟨hds, _, hq⟩ := h
  exact ⟨hds, hq⟩

/-- The items of a block take tokens. -/
lemma blockItem_run (p : Parser) :
    blockItem?.Run Kind.Any p
      (Step (fun ts r _ => Among Declaration.Spelled r.toList ts) (fun _ _ => True)) := by
  apply Run.kind
  split
  · exact Run.pure trivial
  · exact Run.pure trivial
  · next h =>
    apply (Run.advanceBlanks (fun _ _ => trivial) (by rw [h]; nofun) trivial).bind_pure
    intro ts _ q _ hts
    obtain ⟨bs, rfl, -, -⟩ := hts
    exact ⟨List.cons_ne_nil _ _, .nothing _⟩
  · next hr he _ =>
    apply (declarationItem_run he hr).bind
    intro ts r q _ hts
    apply (Run.skipBlanks_inner q).any.bind_pure
    intro bs _ s _ _
    exact ⟨List.append_ne_nil_of_left_ne_nil hts.1 bs, hts.2.inFrontOf bs⟩

/-- All declarations of a block are found among its tokens. -/
lemma block_run (p : Parser) :
    block.Run Kind.Any p fun ts ds _ => Among Declaration.Spelled ds ts := by
  apply (Run.expect (by nofun) trivial p).bind
  intro ls _ q _ _
  apply (Run.skipBlanks_inner q).any.bind
  intro bs _ r _ _
  apply (Run.someItems blockItem_run r).bind
  intro ts ds s _ hds
  apply (Run.advanceBlanks_any s).bind_pure
  intro us _ _ _ _
  exact ((hds.1.inFrontOf us).behind bs).behind ls

/-! ### Stylesheets -/

/-- A string in double quotes is read alone and gives its value. -/
lemma doubleQuoted_run (p : Parser) :
    doubleQuoted.Run Kind.Any p fun ts name _ => ∃ t, ts = [t] ∧ t.kind = .string name '"' := by
  apply Run.kind
  split
  · next name quote h =>
    split
    · next hq =>
      apply Run.advance (by rw [h]; nofun) trivial
      exact Run.pure ⟨p.current, rfl, hq ▸ h⟩
    · exact Run.unexpected _
  · exact Run.unexpected _

/-- What is read as a charset rule spells it. -/
lemma charsetRule_run (p : Parser) :
    charsetRule.Run Kind.Any p fun ts name _ => CharsetSpelled (some name) ts := by
  apply (Run.expect (by nofun) trivial p).bind
  intro cs _ q _ hcs
  obtain ⟨c, rfl, hc⟩ := hcs
  apply Run.kind
  split
  · next hw =>
    apply Run.advance (by rw [hw]; nofun) trivial
    apply (doubleQuoted_run _).bind
    intro ts name r _ hts
    obtain ⟨t, rfl, ht⟩ := hts
    apply (Run.expect (by nofun) trivial r).bind_pure
    intro ss _ _ _ hss
    obtain ⟨s, rfl, hs⟩ := hss
    exact .named hc hw ht hs
  · exact Run.unexpected _

/-- What is read as a charset spells it, if one is named. -/
lemma charset_run (p : Parser) :
    charset?.Run Kind.Any p fun ts r _ => ∀ name ∈ r, CharsetSpelled (some name) ts := by
  apply Run.enter
  apply Run.kind
  split
  · apply ((charsetRule_run _).orResync .charset .declaration).imp
    intro ts r _ _ hr
    cases r with
    | none => nofun
    | some name =>
      intro _ hname
      cases hname
      exact hr
  · exact Run.pure nofun

/-- The uri of an import is the current token, which is not moved past. -/
lemma importUri_run (p : Parser) :
    importUri.Run Kind.Inner p fun ts uri q => ts = [] ∧ q = p ∧ UriSpelled uri p.current := by
  apply Run.kind
  split
  · next h => exact Run.pure ⟨rfl, rfl, .string h⟩
  · next h => exact Run.pure ⟨rfl, rfl, .url h⟩
  · exact Run.unexpected _

/-- A further medium is read with its comma, or nothing is read. -/
lemma furtherMedium_run (p : Parser) :
    furtherMedium?.Run Kind.Inner p
      (Step (fun ts medium _ => AfterComma MediumSpelled medium ts) (fun ts _ => ts = [])) := by
  apply Run.kind
  split
  · next h =>
    apply (Run.advanceBlanks_inner (.of_eq h rfl)).bind
    intro cs _ q _ hcs
    obtain ⟨bs, rfl, hb, -⟩ := hcs
    apply (Run.ident_inner _ q).bind
    intro ms medium r _ hms
    obtain ⟨t, rfl, ht⟩ := hms
    apply (Run.skipBlanks_inner r).bind_pure
    intro ds _ _ _ hds
    exact ⟨List.cons_ne_nil _ _, .intro h hb (.intro ht hds.1)⟩
  · exact Run.pure rfl

/-- What is read as media spells them. -/
lemma media_run (p : Parser) :
    media.Run Kind.Inner p fun ts media _ => MediaSpelled media ts := by
  apply Run.kind
  split
  · next first h =>
    apply (Run.advanceBlanks_inner (.of_eq h rfl)).bind
    intro ts _ q _ hts
    obtain ⟨bs, rfl, hb, -⟩ := hts
    apply (Run.items furtherMedium_run q).bind_pure
    intro us others r _ hus
    obtain ⟨vs, _, rfl, hvs, rfl⟩ := hus
    rw [List.append_nil]
    exact .named (.intro (.intro h hb) hvs)
  · exact Run.pure .absent

/-- What is read as an import spells it. -/
lemma importRule_run (p : Parser) :
    importRule.Run Kind.Any p fun ts i _ => i.Spelled ts := by
  apply Run.enter
  apply (Run.expect (by nofun) trivial _).bind
  intro is _ q _ his
  obtain ⟨i, rfl, hi⟩ := his
  apply (Run.skipBlanks_inner q).any.bind
  intro bs _ r _ hbs
  apply (importUri_run r).any.bind
  intro us uri s _ hus
  obtain ⟨rfl, rfl, hu⟩ := hus
  apply (Run.advanceBlanks_inner hu.inner).any.bind
  intro cs' _ u _ hcs
  obtain ⟨cs, rfl, hc, -⟩ := hcs
  apply (media_run u).any.bind
  intro ms media v _ hms
  apply (Run.expect (by nofun) trivial v).bind
  intro ss _ w _ hss
  obtain ⟨t, rfl, ht⟩ := hss
  apply (Run.skipBlanks_inner w).any.bind_pure
  intro ds _ _ _ hds
  exact .intro hi hbs.1 hu hc hms ht hds.1

/-- A further selector is read with its comma, or nothing is read. -/
lemma furtherSelector_run (p : Parser) :
    furtherSelector?.Run Kind.Inner p
      (Step (fun ts s _ => AfterComma Selector.Spelled s ts) (fun ts _ => ts = [])) := by
  apply Run.kind
  split
  · next h =>
    apply (Run.advanceBlanks_inner (.of_eq h rfl)).bind
    intro ts _ q _ hts
    obtain ⟨bs, rfl, hb, -⟩ := hts
    apply Run.kind
    split
    · apply (selector_run q).bind_pure
      intro us s r _ hs
      exact ⟨List.cons_ne_nil _ _, .intro h hb hs⟩
    · exact Run.unexpected _
  · exact Run.pure rfl

/-- A ruleset takes a token and is found among what it takes. -/
lemma ruleset_run (p : Parser) :
    ruleset.Run Kind.Any p fun ts r _ => ts ≠ [] ∧ r.Found ts := by
  apply Run.enter
  apply (selector_run _).any.bind
  intro ts first q _ hfirst
  apply (Run.items furtherSelector_run q).any.bind
  intro us others r _ hus
  obtain ⟨vs, _, rfl, hvs, rfl⟩ := hus
  apply (block_run r).bind_pure
  intro xs ds s _ hds
  refine ⟨List.append_ne_nil_of_left_ne_nil hfirst.ne_nil _, ?_⟩
  simp only [List.append_nil, ← List.append_assoc]
  exact .intro (.intro hfirst hvs) hds

/-- The items in front of a charset take tokens. -/
lemma leadingItem_run (p : Parser) :
    leadingItem?.Run Kind.Any p (Step (fun _ _ _ => True) (fun _ _ => True)) := by
  apply Run.kind
  split
  · next h =>
    obtain ⟨ts, hts, hne⟩ := Parser.skipAtRule_reads (p := p) (by rw [h]; nofun)
    apply Run.change hts fun _ _ => trivial
    exact Run.pure ⟨by rwa [List.append_nil], trivial⟩
  · exact Run.pure trivial

/-- The items among the imports take tokens, and an import is found among those it takes. -/
lemma importItem_run (p : Parser) :
    importItem?.Run Kind.Any p
      (Step (fun ts r _ => Among Import.Spelled r.toList ts) (fun _ _ => True)) := by
  obtain ⟨fs, hfs⟩ := p.skipFiller_reads
  apply Run.change hfs fun _ _ => trivial
  generalize p.skipFiller = q
  apply Run.kind
  split
  · next h =>
    obtain ⟨ts, hts, hne⟩ := Parser.skipAtRule_reads (p := q) (by rw [h]; nofun)
    apply Run.change hts fun _ _ => trivial
    refine Run.pure ⟨List.append_ne_nil_of_right_ne_nil fs ?_, .nothing _⟩
    rwa [List.append_nil]
  · next h =>
    apply ((importRule_run q).orResync .importRule .declaration).bind_pure
    intro ts r s _ hs
    cases r with
    | none =>
      refine ⟨List.append_ne_nil_of_right_ne_nil fs ?_, .nothing _⟩
      exact hs (by rw [h]; nofun) (verdict_declaration_ne (by rw [h]; nofun))
    | some i =>
      exact ⟨List.append_ne_nil_of_right_ne_nil fs hs.ne_nil, (Among.single hs).behind fs⟩
  · exact Run.pure trivial

/-- An item of the rulesets takes a token, and its ruleset is found among what it takes. -/
lemma rulesetItem_run {p : Parser} (hne : p.kind ≠ .eof) :
    rulesetItem.Run Kind.Any p fun ts r _ => ts ≠ [] ∧ Among Ruleset.Found r.toList ts := by
  apply Run.kind
  split
  · obtain ⟨ts, hts, hn⟩ := Parser.skipAtRule_reads hne
    apply Run.change hts fun _ _ => trivial
    exact Run.pure ⟨by rwa [List.append_nil], .nothing _⟩
  · split
    · apply ((ruleset_run p).orResync .ruleset .block).imp
      intro ts r q _ hr
      cases r with
      | none => exact ⟨hr hne (verdict_block_ne _ _), .nothing ts⟩
      | some s => exact ⟨hr.1, .single hr.2⟩
    · obtain ⟨ts, hts, hn⟩ := Parser.resync_reads .block (p.note (.ignoredRuleset p.current))
      apply Run.change hts.note_trans fun _ _ => trivial
      refine Run.pure ⟨?_, .nothing _⟩
      rw [List.append_nil]
      exact hn hne (verdict_block_ne _ _)

/-- The items of the rulesets take tokens up to the end of the input. -/
lemma nextRuleset_run (p : Parser) :
    rulesetItem?.Run Kind.Any p
      (Step (fun ts r _ => Among Ruleset.Found r.toList ts) (fun _ q => q.kind = .eof)) := by
  apply Run.kind
  split
  · next h => exact Run.pure h
  · next h =>
    apply (rulesetItem_run h).bind
    intro ts r q _ hts
    obtain ⟨fs, hfs⟩ := q.skipFiller_reads
    apply Run.change hfs fun _ _ => trivial
    exact Run.pure ⟨List.append_ne_nil_of_left_ne_nil hts.1 _, hts.2.inFrontOf _⟩

/-- A stylesheet is found among its tokens, which are read up to the end of the input. -/
lemma stylesheet_run (p : Parser) :
    stylesheet.Run Kind.Any p fun ts s q => s.Found ts ∧ q.kind = .eof := by
  apply Run.enter
  apply (Run.items (I := fun _ _ => True) leadingItem_run _).bind
  intro ls _ q _ _
  apply (charset_run q).bind
  intro cs charset r _ hc
  apply (Run.someItems importItem_run r).bind
  intro is imports s _ hi
  apply (Run.someItems nextRuleset_run s).bind_pure
  intro rs rulesets u _ hr
  obtain ⟨hr, _, hu⟩ := hr
  exact ⟨.intro hc hi.1 hr, hu⟩

end Grammar

end CssSyntax
