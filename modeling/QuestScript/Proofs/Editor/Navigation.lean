import QuestScript.Editor.Navigation
import QuestScript.Proofs.Editor.Declaration
import QuestScript.Proofs.Span

/-! # Navigation and renaming agree

A renaming, the references to a state and its definition start from the same caret by different ways: a
renaming may start from the keyword before a name and compares names one by one, the others look a
name up in the catalog. Whatever the document looks like they find the same names
(`Analysis.navigation_agrees`): what can be renamed is the name of a state in the tree, and what a
reference finds is the first declaration of its name. -/

namespace QuestScript.Analysis

variable {a : Analysis} {p q place : Place} {t name : Token} {position : Position}

/-! ### Names at places -/

theorem isToken_of_isStateName (h : a.isStateName p = true) :
    p.focus.isToken .identifier = true := by
  rw [isStateName, Bool.or_eq_true] at h
  rcases h with h | h
  · rw [isStateDeclaration, Bool.and_eq_true] at h
    exact h.1
  · by_contra hname
    rw [referenceKind?, if_neg hname] at h
    cases h

theorem mem_identifiers_of_isStateName (hp : p ∈ (Place.root a.parse.tree).descendants)
    (ht : p.focus.token? = some t) (h : a.isStateName p = true) : (p, t) ∈ a.identifiers := by
  have hkind := isToken_of_isStateName h
  rw [Tree.eq_token_of_token? ht] at hkind
  exact mem_identifiers.mpr ⟨hp, ht, by simpa [Tree.isToken, Tree.kind] using hkind⟩

theorem isStateDeclaration_eq_false {kind : SymbolKind} (h : a.referenceKind? p = some kind) :
    isStateDeclaration p = false := by
  by_contra hdeclares
  rw [Bool.not_eq_false, isStateDeclaration, Bool.and_eq_true, beq_iff_eq] at hdeclares
  obtain ⟨before, after, path, hplace⟩ := Place.exists_frame hdeclares.2
  rw [referenceKind?, if_pos hdeclares.1, hplace, classify_block _ (.inr rfl)] at h
  cases h

/-! ### Renaming -/

/-- The place of a state's name that is found from the keyword before it is in the tree, too. -/
theorem of_stateDeclarationAt? (hp : p ∈ (Place.root a.parse.tree).descendants)
    (h : stateDeclarationAt? p = some q) :
    q ∈ (Place.root a.parse.tree).descendants ∧ isStateDeclaration q = true := by
  unfold stateDeclarationAt? at h
  split at h
  · rename_i hdeclares
    obtain rfl := Option.some.inj h
    exact ⟨hp, hdeclares⟩
  · split at h
    · obtain ⟨hq, hdeclares⟩ := Option.filter_eq_some_iff.mp h
      obtain ⟨parent, hparent, hchild⟩ := Option.bind_eq_some_iff.mp hq
      have hparent := Place.parent?_mem_descendants hp hparent
      exact ⟨Place.child?_mem_descendants hparent hchild, hdeclares⟩
    · cases h

/-- **What can be renamed is the name of a state.** -/
theorem namesState_of_renameTarget (hp : p ∈ (Place.root a.parse.tree).descendants)
    (h : a.renameTarget p = .ok t) : a.NamesState t := by
  have hname : ((stateDeclarationAt? p).getD p) ∈ (Place.root a.parse.tree).descendants := by
    cases hq : stateDeclarationAt? p with
    | none => exact hp
    | some q => exact (of_stateDeclarationAt? hp hq).1
  unfold renameTarget at h
  dsimp only at h
  split at h
  · cases h
  · rename_i u hu
    split at h
    · rename_i hdeclares
      cases h
      have hstate : a.isStateName ((stateDeclarationAt? p).getD p) = true :=
        isStateName_of_isStateDeclaration hdeclares
      exact ⟨_, mem_identifiers_of_isStateName hname hu hstate, hstate⟩
    · split at h
      · rename_i hkind
        cases h
        have hstate : a.isStateName ((stateDeclarationAt? p).getD p) = true :=
          isStateName_of_referenceKind? hkind
        exact ⟨_, mem_identifiers_of_isStateName hname hu hstate, hstate⟩
      · cases h
      · cases h
      · cases h

theorem renameTarget_of_isStateName (ht : p.focus.token? = some t) (h : a.isStateName p = true) :
    a.renameTarget p = .ok t := by
  have hname := isToken_of_isStateName h
  have hplace : (stateDeclarationAt? p).getD p = p := by
    have hkeyword : p.focus.isToken (.keyword .state) = false := by
      rw [Tree.isToken, beq_iff_eq] at hname
      rw [Tree.isToken, hname]
      rfl
    unfold stateDeclarationAt?
    rw [hkeyword, Bool.false_and]
    split <;> rfl
  unfold renameTarget
  dsimp only
  rw [hplace, ht]
  dsimp only
  split
  · rfl
  · rename_i hdeclares
    rw [isStateName, Bool.or_eq_true] at h
    rw [beq_iff_eq.mp (h.resolve_left hdeclares)]

theorem namesState_of_nameAt? (h : a.nameAt? position = some t) : a.NamesState t := by
  obtain ⟨hit, hhit, h⟩ := Option.bind_eq_some_iff.mp h
  cases htarget : a.renameTarget hit.element with
  | error e =>
    rw [htarget] at h
    cases h
  | ok u =>
    rw [htarget] at h
    obtain rfl := Option.some.inj h
    exact namesState_of_renameTarget (hitAt_mem hhit) htarget

theorem prepareRename_eq_ok {r : Span} :
    a.prepareRename position = .ok r ↔ ∃ old, a.nameAt? position = some old ∧ r = old.span := by
  rw [prepareRename, nameAt?]
  cases a.hitAt position with
  | none => simp
  | some hit =>
    rw [Option.bind_some]
    dsimp only
    cases a.renameTarget hit.element with
    | error e => simp [Except.map, Except.toOption]
    | ok old => simp [Except.map, Except.toOption, eq_comm]

/-! ### The token at a position -/

theorem of_tokenAt (h : a.tokenAt position = some (place, t)) :
    place ∈ (Place.root a.parse.tree).descendants ∧ place.focus.token? = some t ∧
      ∃ hit, a.hitAt position = some hit ∧ hit.element = place := by
  obtain ⟨hit, hhit, h⟩ := Option.bind_eq_some_iff.mp h
  obtain ⟨u, hu, h⟩ := Option.bind_eq_some_iff.mp h
  obtain ⟨rfl, rfl⟩ := Prod.mk.inj (Option.some.inj h)
  exact ⟨hitAt_mem hhit, hu, hit, hhit, rfl⟩

theorem nameAt?_of_tokenAt (h : a.tokenAt position = some (place, t))
    (hname : a.isStateName place = true) : a.nameAt? position = some t := by
  obtain ⟨-, ht, hit, hhit, rfl⟩ := of_tokenAt h
  rw [nameAt?, hhit, Option.bind_some, renameTarget_of_isStateName ht hname]
  rfl

/-! ### Declarations and references -/

section Source
variable {flavor : Flavor} {source : String}

/-- **References lead from the name of a state to a declaration of that name.** -/
theorem of_declarationAt? (h : (ofSource flavor source).declarationAt? position = some name) :
    ∃ place t, (ofSource flavor source).tokenAt position = some (place, t) ∧
      (ofSource flavor source).isStateName place = true ∧
      name ∈ (ofSource flavor source).declarations t.text := by
  obtain ⟨⟨place, t⟩, htoken, h⟩ := Option.bind_eq_some_iff.mp h
  refine ⟨place, t, htoken, ?_⟩
  obtain ⟨hplace, ht, -⟩ := of_tokenAt htoken
  dsimp only at h
  split at h
  · rename_i hdeclares
    obtain rfl := Option.some.inj h
    have hname : (ofSource flavor source).isStateName place = true :=
      isStateName_of_isStateDeclaration hdeclares
    have hmem := mem_identifiers_of_isStateName hplace ht hname
    exact ⟨hname, mem_declarations.mpr ⟨⟨place, hmem, hdeclares⟩, namesMatch_self _⟩⟩
  · obtain ⟨s, hs, rfl⟩ := Option.map_eq_some_iff.mp h
    unfold referencedState? at hs
    split at hs
    · rename_i hkind
      have hname : (ofSource flavor source).isStateName place = true :=
        isStateName_of_referenceKind? hkind
      obtain ⟨symbol, hsymbol, hstate⟩ := Option.bind_eq_some_iff.mp hs
      cases symbol with
      | builtin b => cases hstate
      | state s' =>
        obtain rfl := Option.some.inj hstate
        exact ⟨hname, List.mem_of_mem_head? (head?_declarations hsymbol)⟩
    · cases hs

theorem references_true (h : a.declarationAt? position = some name) :
    a.references position true = a.references position false ++ [name.span] := by
  simp [references, h]

theorem mem_references_true (h : a.declarationAt? position = some name) {s : Span} :
    s ∈ a.references position true ↔ (∃ p t, (p, t) ∈ a.identifiers ∧
      a.referenceKind? p = some .state ∧ namesMatch t.text name.text = true ∧ s = t.span) ∨
        s = name.span := by
  simp only [references, h, if_true, List.mem_append, List.mem_map, List.mem_filter, Prod.exists,
    Bool.and_eq_true, beq_iff_eq, List.mem_singleton]
  refine or_congr_left ⟨?_, ?_⟩
  · rintro ⟨p, t, ⟨hmem, hmatch, hkind⟩, rfl⟩
    exact ⟨p, t, hmem, hkind, hmatch, rfl⟩
  · rintro ⟨p, t, hmem, hkind, hmatch, rfl⟩
    exact ⟨p, t, ⟨hmem, hmatch, hkind⟩, rfl⟩

/-- **If a name is declared once, its references and its declaration are all its names.** -/
theorem mem_references_iff (h : a.declarationAt? position = some name) {old : Token}
    (hname : name ∈ a.declarations old.text) (hone : (a.declarations old.text).length = 1)
    {s : Span} : s ∈ a.references position true ↔ s ∈ (a.namesOf old).map Token.span := by
  obtain ⟨hdeclares, hmatch⟩ := mem_declarations.mp hname
  have honly : ∀ t ∈ a.declarations old.text, t = name := by
    obtain ⟨u, hu⟩ := List.length_eq_one_iff.mp hone
    intro t ht
    rw [hu, List.mem_singleton] at ht hname
    rw [ht, hname]
  have hsame : ∀ t : Token, namesMatch t.text name.text = namesMatch t.text old.text := fun t => by
    rw [namesMatch_comm, namesMatch_congr hmatch, namesMatch_comm]
  rw [mem_references_true h, List.mem_map]
  constructor
  · rintro (⟨p, t, hmem, hkind, hmatch, rfl⟩ | rfl)
    · have hstate : a.NamesState t := ⟨p, hmem, isStateName_of_referenceKind? hkind⟩
      exact ⟨t, mem_namesOf.mpr ⟨hstate, hsame t ▸ hmatch⟩, rfl⟩
    · exact ⟨name, mem_namesOf.mpr ⟨hdeclares.namesState, hmatch⟩, rfl⟩
  · rintro ⟨t, ht, rfl⟩
    obtain ⟨⟨p, hmem, hstate⟩, hmatch⟩ := mem_namesOf.mp ht
    rw [isStateName, Bool.or_eq_true, beq_iff_eq] at hstate
    rcases hstate with hdeclares | hkind
    · exact .inr (congrArg _ (honly t (mem_declarations.mpr ⟨⟨p, hmem, hdeclares⟩, hmatch⟩)))
    · exact .inl ⟨p, t, hmem, hkind, (hsame t).trans hmatch, rfl⟩

/-- **A reference that is resolved leads to the first declaration of its name.** -/
theorem definition_of_reference (h : (ofSource flavor source).tokenAt position = some (place, t))
    (hkind : (ofSource flavor source).referenceKind? place = some .state)
    (hresolved : (ofSource flavor source).catalog.lookup? .state t.text ≠ none) :
    ∃ d range, ((ofSource flavor source).declarations t.text).head? = some d ∧
      (ofSource flavor source).declarationAt? position = some d ∧
      (ofSource flavor source).definition position = some ⟨range, d.span⟩ := by
  obtain ⟨symbol, hsymbol⟩ := Option.ne_none_iff_exists'.mp hresolved
  obtain ⟨s, hs, rfl⟩ := Option.map_eq_some_iff.mp hsymbol
  have hstate : (ofSource flavor source).referencedState? place t = some s := by
    rw [referencedState?, if_pos hkind, hsymbol]
    rfl
  have hblock := spanOf?_block (List.mem_filter.mp (List.mem_of_mem_head? hs)).1
  have hdeclares := isStateDeclaration_eq_false hkind
  refine ⟨s.declaration, Definition.peek s.block.extent, head?_declarations hsymbol, ?_, ?_⟩
  · simp [declarationAt?, h, hdeclares, hstate]
  · simp [definition, h, hdeclares, hstate, definitionIn, hblock]

/-! ### The features together -/

/-- **Navigation features agree.** At a position a renaming can be prepared exactly if there is one. It
then starts from the name of a state, and its edits are, in document order, at the spans of all names
of states that match this one. If there are references at the position, the caret is on a token, and
if its name is declared once, the references and the declaration are what is renamed. If the caret
is on a reference to a state that is found, its definition is the first declaration of the name, and so
is the span that comes after the references. -/
theorem navigation_agrees (flavor : Flavor) (source : String) (position : Position) :
    let a := ofSource flavor source
    (∀ newName, (∃ r, a.prepareRename position = .ok r) ↔
      ∃ edits, a.rename position newName = some edits) ∧
    (∀ r newName edits, a.prepareRename position = .ok r →
      a.rename position newName = some edits →
        ∃ old, a.NamesState old ∧ r = old.span ∧ r ∈ edits.map (·.range) ∧
          edits.map (·.range) = (a.namesOf old).map Token.span ∧
          (∀ t, t ∈ a.namesOf old ↔ a.NamesState t ∧ namesMatch t.text old.text = true) ∧
          (a.namesOf old).Sublist a.parse.stream.tokens ∧
          (edits.map (·.range)).Pairwise (·.start < ·.start)) ∧
    (∀ newName, a.references position true ≠ [] →
      ∃ place t, a.tokenAt position = some (place, t) ∧
        ((a.declarations t.text).length = 1 →
          ∃ edits, a.rename position newName = some edits ∧
            ∀ s, s ∈ a.references position true ↔ s ∈ edits.map (·.range))) ∧
    ∀ place t, a.tokenAt position = some (place, t) → a.referenceKind? place = some .state →
      a.catalog.lookup? .state t.text ≠ none →
        ∃ d range, (a.declarations t.text).head? = some d ∧
          a.definition position = some ⟨range, d.span⟩ ∧
          a.references position true = a.references position false ++ [d.span] := by
  intro a
  have hranges : ∀ old newName, (((a.namesOf old).map fun t =>
      (⟨t.span, newName⟩ : TextEdit)).map (·.range)) = (a.namesOf old).map Token.span :=
    fun old newName => List.map_map
  refine ⟨fun newName => ?_, ?_, fun newName hreferences => ?_, fun place t htoken hkind hfound => ?_⟩
  · simp only [prepareRename_eq_ok, rename_eq, Option.map_eq_some_iff]
    constructor
    · rintro ⟨r, old, hold, rfl⟩
      exact ⟨_, old, hold, rfl⟩
    · rintro ⟨_, old, hold, rfl⟩
      exact ⟨old.span, old, hold, rfl⟩
  · intro r newName edits hprepare hrename
    obtain ⟨old, hold, rfl⟩ := prepareRename_eq_ok.mp hprepare
    rw [rename_eq, hold] at hrename
    obtain rfl := Option.some.inj hrename
    have hstate := namesState_of_nameAt? hold
    rw [hranges]
    refine ⟨old, hstate, rfl, ?_, rfl, fun t => mem_namesOf, ?_, ?_⟩
    · exact List.mem_map_of_mem (mem_namesOf.mpr ⟨hstate, namesMatch_self _⟩)
    · exact namesOf_sublist.trans List.filter_sublist
    · exact List.pairwise_map.mpr ((TokenStream.pairwise_start flavor source).sublist namesOf_sublist)
  · cases hname : a.declarationAt? position with
    | none =>
      rw [references, hname] at hreferences
      exact absurd rfl hreferences
    | some name =>
      obtain ⟨place, t, htoken, hstate, hdeclared⟩ := of_declarationAt? hname
      refine ⟨place, t, htoken, fun hone => ?_⟩
      refine ⟨(a.namesOf t).map fun u => ⟨u.span, newName⟩, ?_, fun s => ?_⟩
      · rw [rename_eq, nameAt?_of_tokenAt htoken hstate]
        rfl
      · rw [hranges]
        exact mem_references_iff hname hdeclared hone
  · obtain ⟨d, range, hfirst, hdeclaration, hdefinition⟩ :=
      definition_of_reference htoken hkind hfound
    exact ⟨d, range, hfirst, hdefinition, references_true hdeclaration⟩

end Source

end QuestScript.Analysis
