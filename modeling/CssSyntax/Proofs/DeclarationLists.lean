import CssSyntax.Proofs.EndOfInput

/-!
# Lists of declarations

A list of declarations falls into parts at every `;` that stands outside of brackets: recovery that
starts inside of a part ends in it or with the `;` behind it, however malformed the part is, so the
parts are read as if each of them stood alone (`declarations_split`).

The items of a block and of a list without a block around it are read by loops of their own, which
skip blanks in different places. They stay in lockstep up to the brace that closes the block
(`block_is_start_of_list`).
-/

namespace CssSyntax

open ParseM

namespace Grammar

/-! ### Splitting a list -/

section Split

variable {s e : Token} {ws : List Token} {p q : Parser}

/-- The first parser is done with what stands in front of a `;`, or behind the `;` already, and the
second one has read the same up to the end of the input. -/
def AtSplit (s : Token) (ws : List Token) (p q : Parser) : Prop :=
  (p.skipBlanks.unread = s :: ws ∨ p.unread = ws) ∧ q.skipBlanks.kind = .eof

/-- Recovery ends in front of the `;`, or with it and with the input. -/
lemma resync_shared (hs : s.kind = .semicolon) (he : e.kind = .eof)
    (h : p.Facing (Shared (s :: ws) [e]) q) :
    (p.resync .declaration).Facing (Shared (s :: ws) [e]) (q.resync .declaration) ∨
      AtSplit s ws (p.resync .declaration) (q.resync .declaration) := by
  obtain ⟨us, hus, hp, hq⟩ := h.unread
  rcases hus.rest_declaration with ⟨vs, hvs, hrest⟩ | hrest
  · refine .inl (h.resync ⟨vs, hvs, ?_, ?_⟩)
    · rw [hp, hrest]
    · rw [hq, hrest]
  · refine .inr ⟨.inr ?_, ?_⟩
    · rw [Parser.resync_unread, hp, hrest]
      exact Boundary.restWithin_of_stopBehind (by rw [hs]; nofun) (by rw [hs]; rfl)
    · have hend : (q.resync .declaration).skipBlanks.unread = [e] := by
        have hstay : Boundary.declaration.rest [e] = [e] := Boundary.restWithin_of_eof he
        rw [Parser.skipBlanks_unread, Parser.resync_unread, hq, hrest, hstay]
        exact dropBlanks_of_startsWith ⟨e, [], rfl, by rw [he]; rfl⟩
      obtain rfl := Parser.current_of_unread hend
      exact he

/-- An item in front of the `;` is read alike with the `;` and the rest behind it, and with the end of
the input. -/
lemma listItem_shared (hs : s.kind = .semicolon) (he : e.kind = .eof)
    (h : p.Facing (Shared (s :: ws) [e]) q) :
    AtSplit s ws p q ∨
    ∃ r p' q', listItem? p = (.ok (some r), p') ∧ listItem? q = (.ok (some r), q') ∧
      (p'.Facing (Shared (s :: ws) [e]) q' ∨ AtSplit s ws p' q') := by
  have hL : Lockstep Kind.Alike (Shared (s :: ws) [e]) :=
    .shared (by rw [hs]; rfl) (by rw [he]; rfl)
  have hb : p.skipBlanks.Facing (Shared (s :: ws) [e]) q.skipBlanks :=
    h.skipWhile hL Kind.uniform_isWhitespace.eq
  rcases hb.of_shared with ⟨hp, hq⟩ | ⟨hk, hne, hr, hadvance⟩
  · obtain rfl := Parser.current_of_unread hq
    exact .inl ⟨.inl hp, he⟩
  · right
    by_cases hsep : p.skipBlanks.kind = .semicolon
    · refine ⟨none, _, _, listItem_of_separator (.inl hsep),
        listItem_of_separator (.inl (hk.trans hsep)), .inl (hadvance ?_)⟩
      rw [hsep]
      nofun
    · -- Up to the split both sides read alike, and recovery alone can get past it.
      have hitem : declarationItem.Agrees (Parser.Facing (Shared (s :: ws) [e])) p.skipBlanks
          q.skipBlanks fun p' q' => p'.Facing (Shared (s :: ws) [e]) q' ∨ AtSplit s ws p' q' :=
        declarationItem_agrees hL (fun _ _ h' => .inl h') (fun _ _ h' => resync_shared hs he h') hb
      obtain ⟨r, p', q', hp', hq', h'⟩ := hitem.of_total declarationItem_total
      refine ⟨r, p', q', listItem_of_item hne ?_ hp', listItem_of_item ?_ ?_ hq', h'⟩
      · exact not_or.mpr ⟨hsep, hr⟩
      · rwa [hk]
      · rw [hk]
        exact not_or.mpr ⟨hsep, hr⟩

/-- From the `;` on, the list goes on with what stands behind it. -/
lemma AtSplit.exists_behind (hs : s.kind = .semicolon) (h : AtSplit s ws p q) :
    ∃ p', Collects listItem? p [] p' ∧ p'.unread = ws := by
  obtain ⟨hp | hp, -⟩ := h
  · obtain ⟨rfl, ha⟩ := Parser.unread_advance hp (by rw [hs]; nofun)
    exact ⟨_, .next (listItem_of_separator (.inl hs)) (.refl _), ha⟩
  · exact ⟨p, .refl p, hp⟩

/-- The items in front of a `;` are those of the list that ends there. -/
lemma items_split (hs : s.kind = .semicolon) (he : e.kind = .eof)
    (h : p.Facing (Shared (s :: ws) [e]) q) :
    ∃ as p' q', Collects listItem? p as p' ∧ p'.unread = ws ∧
      manySome listItem? q = (.ok as, q') := by
  obtain ⟨as, p', q', hp, hq, hd⟩ := Collects.lockstep listItem_advances
    (R := fun p q => p.Facing (Shared (s :: ws) [e]) q ∨ AtSplit s ws p q) (D := AtSplit s ws)
    (fun p q h => h.elim (listItem_shared hs he) .inl) (.inl h)
  obtain ⟨p'', hp', hu⟩ := hd.exists_behind hs
  have hend := hq.manySome_of_end listItem_advances (listItem_of_eof hd.2)
  have hall := hp.trans hp'
  rw [List.append_nil] at hall
  exact ⟨as, p'', _, hall, hu, hend⟩

end Split

end Grammar

open Grammar in
/-- A list of declarations is read in two parts at a `;` behind a list with matching brackets, however
malformed the parts are. -/
theorem declarations_split (config : Config) (ts us : List Token) (s : Token) (hts : Nested ts)
    (hs : s.kind = .semicolon) (hus : NoEof us) :
    ∃ as bs, ((Parser.ofSource (.tokens ts) config).report declarations).result = .ok as ∧
      ((Parser.ofSource (.tokens us) config).report declarations).result = .ok bs ∧
      ((Parser.ofSource (.tokens (ts ++ s :: us)) config).report declarations).result =
        .ok (as ++ bs) := by
  have hall : NoEof (ts ++ s :: us) :=
    noEof_append.mpr ⟨hts.ne_eof, noEof_cons.mpr ⟨by rw [hs]; nofun, hus⟩⟩
  have hfacing :
      ((Parser.ofSource (.tokens (ts ++ s :: us)) config).note (.tried .declarations)).Facing
        (Shared (s :: (us ++ [⟨.eof, .origin⟩])) [⟨.eof, .origin⟩])
        ((Parser.ofSource (.tokens ts) config).note (.tried .declarations)) := by
    refine ⟨⟨ts, hts.leftover, ?_, Parser.unread_of_noEof hts.ne_eof config⟩, rfl, rfl⟩
    have hu := Parser.unread_of_noEof hall config
    rwa [List.append_assoc] at hu
  obtain ⟨as, p', q', hp, hu, hq⟩ := items_split hs rfl hfacing
  -- what is left behind the `;` is read like a list of its own
  have hbehind : p'.Facing UpToBrace
      ((Parser.ofSource (.tokens us) config).note (.tried .declarations)) := by
    obtain ⟨_, hr⟩ := hp.reads listItem_run
    refine ⟨?_, hr.settings.2, congrArg Config.maxFunctionDepth hr.settings.1⟩
    rw [hu, ← Parser.unread_of_noEof hus config]
    exact (Parser.facing_self hus config).unread
  obtain ⟨bs, p'', r', hp', hr', -⟩ := (items_agree (E := fun _ _ => True) hbehind).of_total
    listItem_total.manySome
  exact ⟨as, bs, Parser.report_of_ok (m := declarations) hq,
    Parser.report_of_ok (m := declarations) hr',
    Parser.report_of_ok (m := declarations) (hp.manySome_eq listItem_advances hp')⟩

/-- The tokens of `a:f(;b:c)`, a broken declaration with another one inside of its call. -/
def declarationInCall : List Token :=
  [.ident "a", .colon, .function "f", .semicolon, .ident "b", .colon, .ident "c",
    .rparen].map (Token.mk · .origin)

/-- The tokens of `a:f(;b:c)` are nested. -/
lemma nested_declarationInCall : Nested declarationInCall := by
  refine .cons rfl rfl (by decide) (.cons rfl rfl (by decide) ?_)
  refine @Nested.enclose ⟨.function "f", .origin⟩ ⟨.rparen, .origin⟩ .paren
    ([.semicolon, .ident "b", .colon, .ident "c"].map (Token.mk · .origin)) [] rfl rfl ?_ .nil
  refine .cons rfl rfl (by decide) (.cons rfl rfl (by decide) ?_)
  exact .cons rfl rfl (by decide) (.cons rfl rfl (by decide) .nil)

/-- The tokens of `d:e}]`, with brackets behind a declaration that close nothing. -/
def declarationBeforeBrackets : List Token :=
  [.ident "d", .colon, .ident "e", .rcurly, .rbracket].map (Token.mk · .origin)

/-- One declaration comes of either part, although recovery ends inside of the call. -/
theorem declarations_split_broken :
    ∃ as bs,
      ((Parser.ofSource (.tokens declarationInCall) {}).report Grammar.declarations).result =
        .ok as ∧
      ((Parser.ofSource (.tokens declarationBeforeBrackets) {}).report
        Grammar.declarations).result = .ok bs ∧
      ((Parser.ofSource (.tokens (declarationInCall ++ ⟨.semicolon, .origin⟩ ::
        declarationBeforeBrackets)) {}).report Grammar.declarations).result = .ok (as ++ bs) ∧
      as.length = 1 ∧ bs.length = 1 := by
  obtain ⟨as, bs, has, hbs, hall⟩ := declarations_split {} declarationInCall
    declarationBeforeBrackets ⟨.semicolon, .origin⟩ nested_declarationInCall rfl
    (by simp [declarationBeforeBrackets])
  exact ⟨as, bs, has, hbs, hall, eq_of_toOption_map List.length 1 has (by decide +kernel),
    eq_of_toOption_map List.length 1 hbs (by decide +kernel)⟩

/-! ### Blocks and lists -/

namespace Grammar

section Block

variable {p q : Parser}

/-- A block ends in front of its brace and of the end of the input. -/
lemma blockItem_of_end (h : p.kind = .rcurly ∨ p.kind = .eof) : blockItem? p = (.ok none, p) := by
  rw [blockItem?, kind_bind_apply]
  rcases h with h | h
  · rw [h]
    rfl
  · rw [h]
    rfl

/-- A semicolon in a block is moved past with the blanks behind it. -/
lemma blockItem_of_semicolon (h : p.kind = .semicolon) :
    blockItem? p = (.ok (some none), p.advance.skipBlanks) := by
  rw [blockItem?, kind_bind_apply]
  rw [h]
  rfl

/-- Anything else in a block is an item of declarations, and the blanks behind it are skipped. -/
lemma blockItem_of_item {item : Option Declaration} (hend : ¬ (p.kind = .rcurly ∨ p.kind = .eof))
    (hs : p.kind ≠ .semicolon) (h : declarationItem p = (.ok item, q)) :
    blockItem? p = (.ok (some item), q.skipBlanks) := by
  rw [blockItem?, kind_bind_apply]
  generalize p.kind = k at hend hs ⊢
  split
  · exact absurd (.inl rfl) hend
  · exact absurd (.inr rfl) hend
  · exact absurd rfl hs
  · exact bind_apply_ok h _

/-- Lists of which the first has no blanks in front. -/
def BehindBlanks (ts us : List Token) : Prop :=
  ts = dropBlanks us

/-- An item of a block and an item of a list are read alike. -/
lemma blockItem_listItem (h : p.Facing BehindBlanks q) :
    (p.Facing BehindBlanks q ∧ (p.kind = .rcurly ∨ p.kind = .eof)) ∨
    ∃ r p' q', blockItem? p = (.ok (some r), p') ∧ listItem? q = (.ok (some r), q') ∧
      p'.Facing BehindBlanks q' := by
  have hb : p.Facing Eq q.skipBlanks := by
    obtain ⟨_, hq, -⟩ := q.skipWhile_unread Kind.isWhitespace rfl
    refine h.of_reads (.refl p) hq ?_
    rw [h.unread]
    exact q.skipBlanks_unread.symm
  have hk : q.skipBlanks.kind = p.kind := (hb.kind (.eq (A := Eq) fun _ => rfl)).symm
  -- the block skips the blanks behind an item, the list those in front of the next one
  have hnext : ∀ p' q' : Parser, p'.Facing Eq q' → p'.skipBlanks.Facing BehindBlanks q' := by
    intro p' q' h'
    obtain ⟨_, hp, -⟩ := p'.skipWhile_unread Kind.isWhitespace rfl
    refine h'.of_reads hp (.refl q') ?_
    rw [← h'.unread]
    exact p'.skipBlanks_unread
  by_cases hend : p.kind = .rcurly ∨ p.kind = .eof
  · exact .inl ⟨h, hend⟩
  · right
    obtain ⟨hr, he⟩ := not_or.mp hend
    by_cases hs : p.kind = .semicolon
    · exact ⟨none, _, _, blockItem_of_semicolon hs, listItem_of_separator (.inl (hk.trans hs)),
        hnext _ _ (hb.advance (.eq (A := Eq) fun _ => rfl) he)⟩
    · have hitem : declarationItem.Agrees (Parser.Facing Eq) p q.skipBlanks (Parser.Facing Eq) :=
        declarationItem_agrees (.eq Kind.Alike.refl) (fun _ _ h' => h')
          (fun _ _ h' => h'.resync (congrArg _ h'.unread)) hb
      obtain ⟨r, p', q', hp', hq', h'⟩ := hitem.of_total declarationItem_total
      refine ⟨r, _, q', blockItem_of_item hend hs hp', listItem_of_item ?_ ?_ hq', hnext _ _ h'⟩
      · rwa [hk]
      · rw [hk]
        exact not_or.mpr ⟨hs, hr⟩

/-- The items of a block are the first ones of a list, and all of them where no brace closes the
block. -/
lemma block_items (h : p.Facing BehindBlanks q) :
    ∃ as bs p' q', manySome blockItem? p = (.ok as, p') ∧
      manySome listItem? q = (.ok (as ++ bs), q') ∧
      ((∀ t ∈ p.unread, t.kind ≠ .rcurly) → bs = []) := by
  obtain ⟨as, p', q', hp, hq, h', hend⟩ :=
    Collects.lockstep blockItem_advances (fun _ _ => blockItem_listItem) h
  obtain ⟨bs, q'', hbs⟩ := listItem_total.manySome q'
  obtain ⟨us, hu⟩ := p'.unread_eq_cons
  refine ⟨as, bs, p', q'', ?_, hq.manySome_eq listItem_advances hbs, ?_⟩
  · exact hp.manySome_of_end blockItem_advances (blockItem_of_end hend)
  · intro hno
    have he : p'.kind = .eof := by
      apply hend.resolve_left
      obtain ⟨ts, hr⟩ := hp.reads blockItem_run
      exact hno _ (hr.unread_subset p'.current_mem_unread)
    have hq' : q'.skipBlanks.unread = p'.current :: us := by
      rw [q'.skipBlanks_unread, ← hu]
      exact h'.unread.symm
    rw [manySome_of_none (listItem_of_eof (Parser.kind_of_unread hq' he))] at hbs
    cases hbs
    rfl

/-- Behind a name and a brace, a ruleset consists of the items of its block. -/
lemma ruleset_of_block {x : String} {t l : Token} {us : List Token} (ht : t.kind = .ident x)
    (hl : l.kind = .lcurly) (hu : p.unread = t :: l :: us) :
    ∃ ts p', p.Reads ts p' ∧ p'.unread = dropBlanks us ∧
      ∀ ds q, manySome blockItem? p' = (.ok ds, q) →
        ruleset p = (.ok ⟨[⟨[⟨some (.named x), []⟩], []⟩], ds⟩, q.advance.skipBlanks) := by
  have hspelled : Selector.Spelled ⟨[⟨some (.named x), []⟩], []⟩ [t] :=
    .intro (.intro (.named ht) .nil nofun) .nil
  obtain ⟨_, p₁, h₁, r₁, u₁⟩ := acceptsSelectors (p.note (.tried .ruleset)) _ [t] us l hspelled
    (Nat.zero_le _) (by rw [hl]; rfl) hu
  obtain ⟨_, p₂, h₂, r₂, u₂⟩ := acceptsFurtherSelectors p₁ [] [] us l .nil (Nat.zero_le _)
    (by rw [hl]; rfl) u₁
  obtain ⟨_, p₃, h₃, r₃, u₃⟩ := Yields.expect hl nofun u₂
  obtain ⟨_, r₄, -⟩ := p₃.skipWhile_unread Kind.isWhitespace rfl
  refine ⟨_, p₃.skipBlanks, (r₁.note_trans.trans r₂).trans (r₃.trans r₄), ?_, ?_⟩
  · rw [Parser.skipBlanks_unread, u₃]
  · intro ds q hds
    have hblock : block p₂ = (.ok ds, q.advance.skipBlanks) := by
      refine (bind_apply_ok h₃ _).trans ?_
      exact bind_apply_ok (p := p₃.skipBlanks) hds _
    refine (bind_apply_ok h₁ _).trans ((bind_apply_ok h₂ _).trans ?_)
    exact bind_apply_ok hblock _

end Block

end Grammar

open Grammar in
/-- The declarations of a ruleset are the first of those that are read from the same tokens as a list,
and they are all of them if no brace closes the block. -/
theorem block_is_start_of_list (config : Config) (x : String) (t l : Token) (us : List Token)
    (ht : t.kind = .ident x) (hl : l.kind = .lcurly) (hus : NoEof us) :
    ∃ r q ds, ruleset (Parser.ofSource (.tokens (t :: l :: us)) config) = (.ok r, q) ∧
      ((Parser.ofSource (.tokens us) config).report declarations).result = .ok ds ∧
      r.declarations <+: ds ∧ ((∀ u ∈ us, u.kind ≠ .rcurly) → r.declarations = ds) := by
  have hall : NoEof (t :: l :: us) :=
    noEof_cons.mpr ⟨by rw [ht]; nofun, noEof_cons.mpr ⟨by rw [hl]; nofun, hus⟩⟩
  have hlist := Parser.unread_of_noEof hus config
  obtain ⟨_, p, hr, hu, hruleset⟩ := ruleset_of_block ht hl (Parser.unread_of_noEof hall config)
  have hfacing : p.Facing BehindBlanks
      ((Parser.ofSource (.tokens us) config).note (.tried .declarations)) := by
    refine ⟨?_, hr.settings.2, congrArg Config.maxFunctionDepth hr.settings.1⟩
    exact hu.trans (congrArg dropBlanks hlist.symm)
  obtain ⟨as, bs, p', q', hp, hq, hnil⟩ := block_items hfacing
  refine ⟨_, _, as ++ bs, hruleset as p' hp, Parser.report_of_ok (m := declarations) hq,
    List.prefix_append as bs, ?_⟩
  intro hno
  have hbs : bs = [] := by
    apply hnil
    intro u hmem
    rw [hu] at hmem
    rcases List.mem_append.mp (List.dropWhile_subset _ hmem) with hmem | hmem
    · exact hno u hmem
    · rw [List.mem_singleton.mp hmem]
      nofun
  rw [hbs, List.append_nil]

/-- The tokens of `b:c;d:f(;e:g`, with a broken declaration between two others. -/
def openItems : List Token :=
  [.ident "b", .colon, .ident "c", .semicolon, .ident "d", .colon, .function "f", .semicolon,
    .ident "e", .colon, .ident "g"].map (Token.mk · .origin)

/-- The tokens of `}h:i`. -/
def closedItems : List Token :=
  [.rcurly, .ident "h", .colon, .ident "i"].map (Token.mk · .origin)

/-- Two declarations stand in front of the brace and one behind it. -/
theorem block_is_start_of_list_broken :
    (∃ r q ds,
      Grammar.ruleset (Parser.ofSource (.tokens
        (⟨.ident "a", .origin⟩ :: ⟨.lcurly, .origin⟩ :: openItems)) {}) = (.ok r, q) ∧
      ((Parser.ofSource (.tokens openItems) {}).report Grammar.declarations).result = .ok ds ∧
      r.declarations = ds ∧ ds.length = 2) ∧
    ∃ r q ds,
      Grammar.ruleset (Parser.ofSource (.tokens
        (⟨.ident "a", .origin⟩ :: ⟨.lcurly, .origin⟩ :: (openItems ++ closedItems))) {}) =
        (.ok r, q) ∧
      ((Parser.ofSource (.tokens (openItems ++ closedItems)) {}).report
        Grammar.declarations).result = .ok ds ∧
      r.declarations <+: ds ∧ ds.length = 3 := by
  constructor
  · obtain ⟨r, q, ds, hr, hds, -, heq⟩ := block_is_start_of_list {} "a" ⟨.ident "a", .origin⟩
      ⟨.lcurly, .origin⟩ openItems rfl rfl (by simp [openItems])
    exact ⟨r, q, ds, hr, hds, heq (by decide),
      eq_of_toOption_map List.length 2 hds (by decide +kernel)⟩
  · obtain ⟨r, q, ds, hr, hds, hprefix, -⟩ := block_is_start_of_list {} "a" ⟨.ident "a", .origin⟩
      ⟨.lcurly, .origin⟩ (openItems ++ closedItems) rfl rfl (by simp [openItems, closedItems])
    exact ⟨r, q, ds, hr, hds, hprefix, eq_of_toOption_map List.length 3 hds (by decide +kernel)⟩

end CssSyntax
