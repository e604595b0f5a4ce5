import QuestScript.Proofs.Check.Blocks
import QuestScript.Proofs.Check.Unresolved
import QuestScript.Proofs.Fix.Cut
import QuestScript.Proofs.Fix.NewBlock
import QuestScript.Proofs.Grammar.Closed
import QuestScript.Proofs.Span

/-! # Putting in a missing state

The fix for a state that is not found puts an empty state of the name right behind the block of the
reference. Whatever errors the document has, the header of the state is then among its tokens
(`TokenStream.exists_state_behind`), so the state is declared, unless the block is not closed and ends in
a rule that still demands a name (`Parse.missing_state_added`). -/

namespace QuestScript

open Lexeme

/-- The new tokens are the old ones with an empty state put in right behind one of them, where the state
starts with the header. -/
def Header.IsPutBehind (h : Header) (last : Token) (old new : List Token) : Prop :=
  ∃ before after before' last' close after', old = before ++ last :: after ∧
    new = before' ++ last' :: h.tokens (close :: after') ∧ close.kind = .rightBrace ∧
    before'.map Token.lexeme = before.map Token.lexeme ∧ last'.lexeme = last.lexeme ∧
    after'.map Token.lexeme = after.map Token.lexeme

namespace Lexeme
variable {flavor : Flavor}

theorem significant_visible (ls : List Lexeme) : significant (visible ls) = significant ls := by
  rw [significant, visible, List.filter_filter]
  refine List.filter_congr fun l _ => ?_
  cases htrivia : l.kind.isTrivia <;> simp [TokenKind.isHidden, htrivia]

theorem closes_newline {k : TokenKind} (hk : k.isHidden = false) (tail : List Char) :
    Closes k ('\n' :: tail) := by
  cases k with
  | whitespace => cases hk
  | lineComment => cases hk
  | integer | keyword | identifier =>
    rintro c ⟨⟩
    decide
  | _ => trivial

end Lexeme

namespace TokenStream
variable {flavor : Flavor} {source name : String} {us vs : List Token} {last : Token}

/-- **The fix puts an empty state behind the token**, and changes no other token. -/
theorem exists_state_behind (h : (ofSource flavor source).significant = us ++ last :: vs)
    (hname : IsWordText name.toList) (hkind : wordKind flavor name.toList = .identifier)
    (isPreferred : Bool) :
    ∃ header : Header, header.name.text = name ∧
      header.IsPutBehind last (ofSource flavor source).significant (ofSource flavor
        (TextEdit.applyAll source
          (Checker.declareState name last.span.stop isPreferred).edits)).significant := by
  obtain ⟨as, bs, hsource, has, hbs, hspan, -⟩ := exists_lexeme h
  have hmem : last ∈ (ofSource flavor source).significant := by simp [h]
  have hhidden := isHidden_of_mem hmem
  have htext : source.toList = (chars as ++ last.text.toList) ++ ([] ++ chars bs) := by
    rw [← chars_ofText flavor source.toList, hsource]
    simp [Token.lexeme]
  have hnew : (TextEdit.applyAll source
      (Checker.declareState name last.span.stop isPreferred).edits).toList =
        chars as ++ (last.lexeme.text ++ (chars (stateLexemes name.toList) ++ chars bs)) := by
    refine (TextEdit.toList_applyAll htext ?_).trans ?_
    · rw [TextEdit.insert, hspan, List.append_nil]
    · rw [List.append_assoc, ← toList_newState]
      rfl
  have hinserted : Lexeme.significant (ofText flavor (chars (stateLexemes name.toList) ++ chars bs)) =
      ⟨.keyword .state, "state".toList⟩ :: ⟨.identifier, name.toList⟩ :: ⟨.leftBrace, ['\x7b']⟩ ::
        ⟨.rightBrace, ['\x7d']⟩ :: Lexeme.significant bs := by
    have hchars : ofText flavor (chars bs) = bs :=
      ofText_chars (hsource.trans (show _ = (as ++ [last.lexeme]) ++ bs by simp))
    rw [← significant_visible, visible_ofText (separate_newState hname hkind _), hchars,
      significant_append, significant_visible, significant_visible]
    rfl
  have hcloses : Closes last.lexeme.kind (chars (stateLexemes name.toList) ++ chars bs) :=
    closes_newline hhidden _
  have hlexemes := map_lexeme_significant flavor (TextEdit.applyAll source
    (Checker.declareState name last.span.stop isPreferred).edits)
  rw [hnew, ofText_behind hsource hhidden hcloses, significant_append,
    significant_cons_of_visible hhidden, hinserted, has, hbs] at hlexemes
  obtain ⟨before, rest, hnewTokens, hbefore, hrest⟩ := List.map_eq_append_iff.mp hlexemes
  obtain ⟨last', rest, rfl, hlast, hrest⟩ := List.map_eq_cons_iff.mp hrest
  obtain ⟨keyword, rest, rfl, hkeyword, hrest⟩ := List.map_eq_cons_iff.mp hrest
  obtain ⟨word, rest, rfl, hword, hrest⟩ := List.map_eq_cons_iff.mp hrest
  obtain ⟨opening, rest, rfl, hopening, hrest⟩ := List.map_eq_cons_iff.mp hrest
  obtain ⟨closing, after, rfl, hclosing, hafter⟩ := List.map_eq_cons_iff.mp hrest
  refine ⟨⟨keyword, word, opening, congrArg Lexeme.kind hkeyword, congrArg Lexeme.kind hword,
    congrArg Lexeme.kind hopening⟩, ?_, ?_⟩
  · exact String.toList_injective (congrArg Lexeme.text hword)
  · exact ⟨us, vs, before, last', closing, after, h, hnewTokens, congrArg Lexeme.kind hclosing, hbefore,
      hlast, hafter⟩

end TokenStream

/-! ### Names that are not found -/

namespace Place

theorem mem_subtrees_of_mem_nodesAround {t : Tree} {path : List Frame} {a : Place}
    (ha : a ∈ nodesAround t path) : t ∈ a.focus.subtrees := by
  induction path generalizing t with
  | nil => cases ha
  | cons f path ih =>
    have hchild : t ∈ (Tree.node f.kind (f.before.reverse ++ t :: f.after)).subtrees :=
      Tree.mem_subtrees_of_allChildren (Tree.self_mem_subtrees _) (by simp [Tree.allChildren])
    rw [nodesAround] at ha
    rcases List.mem_cons.mp ha with rfl | ha
    · exact hchild
    · exact Tree.subtrees_trans _ (ih ha) hchild

end Place

namespace Checker
variable {c : Checker} {p : Place} {f : Finding} {seen : Bool} {name : String}
  {suggestion : Option String}

/-- **A state that is not found is not in the catalog.** -/
theorem lookup?_of_unresolved (h : f ∈ (c.checkPlace seen p).findings)
    (hf : f.problem = .unresolved .state name suggestion) : c.catalog.lookup? .state name = none := by
  obtain ⟨t, ht, rfl, hkind, -⟩ := (finds_of_mem_checkPlace h).of_unresolved hf
  cases hlookup : c.catalog.lookup? .state t.text with
  | none => rfl
  | some symbol =>
    have hcheck : c.checkPlace seen p = (c.checkCasing p t.text symbol.name).andThen (c.checkKeyword p t) := by
      simp only [checkPlace, ht, checkReference, hkind, hlookup, lookup_state_builtin hlookup]
      rfl
    rw [hcheck] at h
    rcases Report.mem_findings_andThen h with h | h
    · unfold checkCasing at h
      split at h
      · cases h
      · obtain ⟨range, -, rfl⟩ := mem_findings_of_span h
        cases hf
    · unfold checkKeyword at h
      dsimp only at h
      split at h
      · cases h
      · obtain ⟨range, -, rfl⟩ := mem_findings_of_span h
        cases hf

theorem Finds.of_declareState (h : c.Finds p f) {fix : QuickFix} (hfix : fix ∈ f.fixes)
    (hf : f.problem = .unresolved .state name suggestion)
    (htitle : fix.title = s!"Add missing state '{name}'") :
    ∃ t block span isPreferred, p.focus = .token t ∧ name = t.text ∧
      c.parse.spanOf p.focus = .ok f.range ∧ p.ancestor? .stateBlock = some block ∧
      c.parse.spanOf block.focus = .ok span ∧ fix = declareState name span.stop isPreferred := by
  have hrespell : ∀ {kind : SymbolKind} {range : Span}, fix ∉ c.respellings kind name range := by
    intro kind range hmem
    obtain ⟨other, -, rfl⟩ := Option.map_eq_some_iff.mp (Option.mem_toList.mp hmem)
    have hhead : ("Change spelling to '" ++ other ++ "'").toList.head? =
        ("Add missing state '" ++ name ++ "'").toList.head? := congrArg (·.toList.head?) htitle
    simp at hhead
  cases h with
  | unresolved focus reference range_eq =>
    cases hf
    exact absurd hfix hrespell
  | undeclared focus reference range_eq block_eq span_eq =>
    cases hf
    rcases List.mem_append.mp hfix with hfix | hfix
    · exact absurd hfix hrespell
    · exact ⟨_, _, _, _, focus, rfl, range_eq, block_eq, span_eq, List.mem_singleton.mp hfix⟩
  | _ => cases hf

end Checker

/-! ### Documents -/

namespace Parse
variable {flavor : Flavor} {source : String} {casings : List String} {h : Header}
  {before after : List Token} {f : Finding} {t : Token} {suggestion : Option String} {fix : QuickFix}

/-- The header of a state opens a block, or its keyword is skipped. -/
theorem opens_or_skipped (hahead : (parse flavor source).stream.significant = before ++ h.tokens after) :
    h.Opens [(parse flavor source).tree] ∨
      h.IsSkipped flavor [(parse flavor source).tree] (parse flavor source).errors := by
  have hsurvives : h.Survives flavor after
      ((Grammar.blocks flavor).run [.file] (before ++ h.tokens after)) :=
    Grammar.spares_blocks [.file] before rfl rfl
  rw [← hahead] at hsurvives
  have hfile : Tree.subtreesOf ((Grammar.blocks flavor).run [.file]
      (parse flavor source).stream.significant).trees ⊆ Tree.subtreesOf [(parse flavor source).tree] :=
    fun u hu => Tree.mem_subtreesOf.mpr
      ⟨_, List.mem_singleton_self _, Tree.mem_subtrees_node.mpr (.inr hu)⟩
  rcases hsurvives with ⟨rest, hrest⟩ | ⟨cs, hcs⟩ | ⟨hskipped, herror⟩
  · have hnil : ((Grammar.blocks flavor).run [.file] (parse flavor source).stream.significant).rest = [] :=
      Grammar.Items.rest_eq_nil (fun _ => rfl) _ _
    exact absurd (hrest.symm.trans hnil) Header.ne_nil
  · exact .inl ⟨cs, hfile hcs⟩
  · exact .inr ⟨hfile hskipped, herror⟩

theorem exists_state_of_opens (hopens : h.Opens [(parse flavor source).tree]) :
    ∃ s ∈ (Catalog.ofParse (parse flavor source)).states, s.declaration = h.name := by
  obtain ⟨cs, hcs⟩ := hopens
  obtain ⟨u, hu, hcs⟩ := Tree.mem_subtreesOf.mp hcs
  rw [List.mem_singleton.mp hu] at hcs
  obtain ⟨s, hs, hname, -⟩ := Catalog.stateOf?_of_header h cs
  exact ⟨s, List.mem_filterMap.mpr ⟨_, List.mem_filter.mpr ⟨hcs, rfl⟩, hs⟩, hname⟩

/-- **A state that is declared is found**, in whatever letter case it is written. -/
theorem lowercase_ne_of_unresolved {s : StateSymbol}
    (hs : s ∈ (Catalog.ofParse (parse flavor source)).states)
    (hf : f ∈ (parse flavor source).findings casings) {name : String}
    (hproblem : f.problem = .unresolved .state name suggestion) : lowercase name ≠ lowercase s.name := by
  have hlookup : (Catalog.ofParse (parse flavor source)).lookup? .state name = none := by
    rw [findings_eq] at hf
    rcases List.mem_append.mp hf with hf | hf
    · exact absurd hproblem (problem_ne_of_mem_syntaxFindings hf)
    · rcases List.mem_append.mp hf with hf | hf
      · obtain ⟨v, -, hf⟩ := List.mem_flatMap.mp hf
        exact Checker.lookup?_of_unresolved hf hproblem
      · split at hf
        · obtain ⟨t, -, rfl⟩ := Checker.of_mem_checkMainExists hf
          cases hproblem
        · cases hf
  intro hsame
  have hnamed : s ∈ (Catalog.ofParse (parse flavor source)).statesNamed name :=
    List.mem_filter.mpr ⟨hs, by simp [hsame]⟩
  rw [Catalog.lookup?, Option.map_eq_none_iff, List.head?_eq_none_iff] at hlookup
  rw [hlookup] at hnamed
  cases hnamed

theorem declared_of_opens (casings : List String) (hopens : h.Opens [(parse flavor source).tree]) :
    (∃ s ∈ (Catalog.ofParse (parse flavor source)).states, s.declaration = h.name) ∧
      ∀ g ∈ (parse flavor source).findings casings, ∀ name other,
        g.problem = .unresolved .state name other → lowercase name ≠ lowercase h.name.text := by
  obtain ⟨s, hs, hname⟩ := exists_state_of_opens hopens
  refine ⟨⟨s, hs, hname⟩, fun g hg name other hmissing => ?_⟩
  have hne := lowercase_ne_of_unresolved hs hg hmissing
  rwa [StateSymbol.name, hname] at hne

theorem applyAll_declareState {source name : String} {stop : Position} {isPreferred : Bool}
    (hstop : stop = Position.after source.toList) :
    TextEdit.applyAll source (Checker.declareState name stop isPreferred).edits =
      source ++ s!"\n\nstate {name}\n\x7b\n\n\x7d" := by
  have htext : source.toList = source.toList ++ ([] ++ []) := by simp
  have hrange : (⟨stop, stop⟩ : Span) =
      ⟨Position.after source.toList, Position.after (source.toList ++ [])⟩ := by
    rw [List.append_nil, ← hstop]
  apply String.toList_injective
  rw [String.toList_append]
  exact (TextEdit.toList_applyAll htext hrange).trans (by rw [List.append_nil]; rfl)

/-- **A name within a state that no state has is reported**, and the fix is offered. -/
theorem mem_findings_unresolved (casings : List String) {q block : Place}
    (hq : q ∈ (Place.root (parse flavor source).tree).descendants) (hsound : q.isError = false)
    (hfocus : q.focus.token? = some t) (hkind : classify flavor q = some .state)
    (hlookup : (Catalog.ofParse (parse flavor source)).lookup? .state t.text = none)
    (hblock : q.ancestor? .stateBlock = some block) :
    ((parse flavor source).checker casings).unresolvedFinding .state t block.focus.extent.stop ∈
      (parse flavor source).findings casings := by
  obtain ⟨u | ⟨n, cs⟩, path⟩ := q
  · obtain rfl : u = t := Option.some.inj hfocus
    let c := (parse flavor source).checker casings
    have hin := Place.isIn_of_mem_descendants hq
    have hknown : c.Knows u :=
      knows_of_mem_leaves flavor source casings (Tree.leaves_subset _ hin.focus (by simp))
    have hnode : block.focus.isNode .stateBlock = true :=
      List.find?_some (p := fun a : Place => a.focus.isNode .stateBlock) hblock
    have hspan := Checker.spanOf_subtree (isTolerated_tree flavor source)
      (fun s hs => knows_of_mem_leaves flavor source casings hs) (hin.ancestor? hblock)
      (Tree.isNode_file_of_isNode hnode (by simp))
    have hcheck : c.checkPlace false ⟨.token u, path⟩ =
        Report.andThen ⟨[c.unresolvedFinding .state u block.focus.extent.stop], none⟩
          (c.checkKeyword ⟨.token u, path⟩ u) := by
      have hunresolved : c.unresolved ⟨.token u, path⟩ .state u.text =
          ⟨[c.unresolvedFinding .state u block.focus.extent.stop], none⟩ :=
        Checker.unresolved_eq hknown fun _ => ⟨block, _, hblock, hspan⟩
      have hclass : classify c.parse.flavor ⟨.token u, path⟩ = some .state := hkind
      have hnone : c.catalog.lookup? .state u.text = none := hlookup
      simp only [Checker.checkPlace, Checker.checkReference, hclass, hnone, hunresolved]
    have hplace : (⟨.token u, path⟩ : Place) ∈ (Checker.visits false c.places).map (·.2) := by
      rw [Checker.map_visits]
      exact List.mem_filter.mpr ⟨hq, by simp [hsound]⟩
    obtain ⟨⟨seen, _⟩, hvisit, rfl⟩ := List.mem_map.mp hplace
    rw [findings_eq]
    refine List.mem_append_right _ (List.mem_append_left _ (List.mem_flatMap.mpr ⟨_, hvisit, ?_⟩))
    show _ ∈ (c.checkPlace false ⟨.token u, path⟩).findings
    rw [hcheck]
    exact List.mem_append_left _ (List.mem_singleton_self _)
  · cases hfocus

theorem exists_block_of_declareState {name : String} (hf : f ∈ (parse flavor source).findings casings)
    (hproblem : f.problem = .unresolved .state name suggestion) (hfix : fix ∈ f.fixes)
    (htitle : fix.title = s!"Add missing state '{name}'") :
    ∃ block ∈ (parse flavor source).tree.nodes .stateBlock,
      (∃ u ∈ block.leaves, u.text = name ∧ u.span = f.range) ∧
      ∃ last isPreferred, block.lastToken? = some last ∧
        last ∈ (parse flavor source).stream.significant ∧
        fix = Checker.declareState name last.span.stop isPreferred := by
  rw [findings] at hf
  have hcheck := (List.mem_append.mp hf).resolve_left
    fun h => absurd hproblem (problem_ne_of_mem_syntaxFindings h)
  obtain ⟨q, hq, hfinds⟩ := (Checker.of_mem_checkPlaces hcheck).resolve_right (by
    rintro ⟨t, -, rfl⟩
    cases hproblem)
  obtain ⟨u, block, span, isPreferred, hfocus, hname, hrange, hancestor, hspan, rfl⟩ :=
    hfinds.of_declareState hfix hproblem htitle
  have hq : q.IsIn (parse flavor source).tree :=
    Place.isIn_of_mem_descendants (List.mem_filter.mp hq).1
  have hblock := hq.ancestor? hancestor
  have hnode : block.focus.isNode .stateBlock = true :=
    List.find?_some (p := fun a : Place => a.focus.isNode .stateBlock) hancestor
  have huLeaf : u ∈ block.focus.leaves := by
    have hbelow := Place.mem_subtrees_of_mem_nodesAround (List.mem_of_find?_eq_some hancestor)
    exact Tree.leaves_subset _ hbelow (by simp [hfocus])
  have huKnown : ((parse flavor source).checker casings).Knows u :=
    knows_of_mem_leaves flavor source casings (Tree.leaves_subset _ hblock huLeaf)
  have huSpan : u.span = f.range := by
    rw [hfocus, huKnown.spanOf] at hrange
    exact Except.ok.inj hrange
  obtain ⟨first, last, hfirst, hlast⟩ := exists_of_spanOf hspan
  have hsub := significantTokens_sublist (.inl rfl) hblock
  obtain rfl : span = ⟨first.span.start, last.span.stop⟩ :=
    Except.ok.inj (hspan.symm.trans (spanOf_eq_of_sublist hsub hfirst hlast))
  exact ⟨block.focus, List.mem_filter.mpr ⟨hblock, hnode⟩, ⟨u, huLeaf, hname.symm, huSpan⟩,
    last, isPreferred, by rw [Tree.lastToken?_eq, hlast], hsub.subset (List.mem_of_getLast? hlast), rfl⟩

/-- **Adding a missing state declares it.** The fix for a state that is not found, where its name is a
name of the document, puts an empty state of that name right behind the last token of the block of the
reference, whatever errors there are. If the block is closed, the state is declared, and it is not
missing any more. If the block is not closed, the same is true unless the keyword that was put in is
skipped, with an error, in front of a name that a rule still demands. -/
theorem missing_state_added (hf : f ∈ (parse flavor source).findings casings)
    (ht : t ∈ (parse flavor source).stream.significant) (hk : t.kind = .identifier)
    (hproblem : f.problem = .unresolved .state t.text suggestion) (hfix : fix ∈ f.fixes)
    (htitle : fix.title = s!"Add missing state '{t.text}'") :
    let p := parse flavor source
    let p' := parse flavor (TextEdit.applyAll source fix.edits)
    ∃ block ∈ p.tree.nodes .stateBlock,
      (∃ u ∈ block.leaves, u.text = t.text ∧ u.span = f.range) ∧
      ∃ (last : Token) (h : Header), block.lastToken? = some last ∧
        h.IsPutBehind last p.stream.significant p'.stream.significant ∧ h.name.text = t.text ∧
        (((∃ s ∈ (Catalog.ofParse p').states, s.declaration = h.name) ∧
            ∀ g ∈ p'.findings casings, ∀ name other, g.problem = .unresolved .state name other →
              lowercase name ≠ lowercase t.text) ∨
          (last.kind ≠ .rightBrace ∧ h.IsSkipped flavor [p'.tree] p'.errors)) := by
  intro p p'
  obtain ⟨block, hblock, hreference, last, isPreferred, hlast, hmem, rfl⟩ :=
    exists_block_of_declareState hf hproblem hfix htitle
  obtain ⟨us, vs, hsplit⟩ := List.append_of_mem hmem
  have hknown : (p.checker casings).Knows t := Checker.knows_of_mem rfl ht
  have hword : t.kind.isWord = true := by rw [hk]; rfl
  obtain ⟨h, hheader, hput⟩ := TokenStream.exists_state_behind hsplit (hknown.word hword)
    ((hknown.wordKind hword).trans hk) isPreferred
  refine ⟨block, hblock, hreference, last, h, hlast, hput, hheader, ?_⟩
  rw [← hheader]
  obtain ⟨before, after, before', last', close, after', -, hnew, -, -, hlexeme, -⟩ := hput
  by_cases hbrace : last.kind = .rightBrace
  · have hlast' : last'.kind = .rightBrace := (congrArg Lexeme.kind hlexeme).trans hbrace
    exact .inl (declared_of_opens casings (opens_behind_brace flavor _ hlast' hnew))
  · have hahead : p'.stream.significant = (before' ++ [last']) ++ h.tokens (close :: after') := by
      rw [List.append_assoc]
      exact hnew
    exact (opens_or_skipped hahead).imp (declared_of_opens casings) (⟨hbrace, ·⟩)

/-- The state to which the rule of a closed block leads. -/
theorem missing_state_added_goto :
    ∃ s ∈ (Catalog.ofParse (parse .official
      "state B \x7b rule X() goto A \x7d\n\nstate A\n\x7b\n\n\x7d")).states, s.name = "A" := by
  let source := "state B \x7b rule X() goto A \x7d"
  let t : Token := ⟨.identifier, "A", 24, 1, 24, 14⟩
  have hplace : ∃ q ∈ (Place.root (parse .official source).tree).descendants, q.isError = false ∧
      q.focus.token? = some t ∧ classify .official q = some .state ∧
        ∃ block ∈ q.ancestor? .stateBlock, block.focus.extent.stop = ⟨0, 27⟩ := by
    decide +kernel
  have hlookup : ((Catalog.ofParse (parse .official source)).statesNamed t.text).head? = none := by
    decide +kernel
  have ht : t ∈ (parse .official source).stream.significant := by decide +kernel
  have hclosed : ∀ block ∈ (parse .official source).tree.nodes .stateBlock,
      ∀ last ∈ block.lastToken?, last.kind = .rightBrace := by
    decide +kernel
  obtain ⟨q, hq, hsound, hfocus, hkind, block, hblock, hstop⟩ := hplace
  have hfound := mem_findings_unresolved [] hq hsound hfocus hkind
    (by rw [Catalog.lookup?, hlookup]; rfl) hblock
  rw [hstop] at hfound
  obtain ⟨block, hblock, -, last, h, hlast, -, hname, hstate⟩ := missing_state_added hfound ht rfl rfl
    (List.mem_append_right _ (List.mem_singleton_self _)) rfl
  obtain ⟨⟨s, hs, hdeclaration⟩, -⟩ :=
    hstate.resolve_right fun h => h.1 (hclosed block hblock last hlast)
  rw [applyAll_declareState (by decide +kernel)] at hs
  exact ⟨s, hs, by rw [StateSymbol.name, hdeclaration, hname]⟩

/-- A rule that still demands a name takes that of the state that is put in behind it, whose keyword is
skipped. -/
theorem exists_undeclared : ¬ ∀ (flavor : Flavor) (source : String) (casings : List String),
    ∀ f ∈ (parse flavor source).findings casings, ∀ name suggestion,
      f.problem = .unresolved .state name suggestion →
      ∀ fix ∈ f.fixes, fix.title = s!"Add missing state '{name}'" →
        let p' := parse flavor (TextEdit.applyAll source fix.edits)
        (∃ s ∈ (Catalog.ofParse p').states, lowercase s.name = lowercase name) ∧
          ∀ g ∈ p'.findings casings, ∀ other, g.problem ≠ .unresolved .state name other := by
  intro hall
  let source := "state B \x7b rule X() goto A rule"
  let t : Token := ⟨.identifier, "A", 24, 1, 24, 14⟩
  have hplace : ∃ q ∈ (Place.root (parse .official source).tree).descendants, q.isError = false ∧
      q.focus.token? = some t ∧ classify .official q = some .state ∧
        ∃ block ∈ q.ancestor? .stateBlock, block.focus.extent.stop = ⟨0, 30⟩ := by
    decide +kernel
  have hlookup : ((Catalog.ofParse (parse .official source)).statesNamed t.text).head? = none := by
    decide +kernel
  have hstates : ∀ s ∈ (Catalog.ofParse (parse .official
      "state B \x7b rule X() goto A rule\n\nstate A\n\x7b\n\n\x7d")).states,
        lowercase s.name ≠ lowercase t.text := by
    decide +kernel
  obtain ⟨q, hq, hsound, hfocus, hkind, block, hblock, hstop⟩ := hplace
  have hfound := mem_findings_unresolved [] hq hsound hfocus hkind
    (by rw [Catalog.lookup?, hlookup]; rfl) hblock
  rw [hstop] at hfound
  obtain ⟨⟨s, hs, hsame⟩, -⟩ := hall .official source [] _ hfound _ _ rfl _
    (List.mem_append_right _ (List.mem_singleton_self _)) rfl
  rw [applyAll_declareState (by decide +kernel)] at hs
  exact hstates s hs hsame

end Parse

end QuestScript
