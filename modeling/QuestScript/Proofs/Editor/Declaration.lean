import QuestScript.Proofs.Caret
import QuestScript.Proofs.Grammar.Nesting
import QuestScript.Proofs.Rename.Document

/-! # The names that declare states

The catalog gathers the states from the blocks of the tree, an editor finds them by looking at the
places of names. Whatever errors a document has, blocks of states stand side by side, and each has at
most one name; so both find the same names in the same order (`Analysis.map_declaration_states`), and a
look-up finds the first name that matches (`Analysis.map_declaration_statesNamed`). -/

namespace QuestScript

/-! ### Names of states -/

namespace Tree
variable {t : Tree}

theorem childToken?_eq_of_countP {k : TokenKind} {u : Token}
    (h : t.allChildren.countP (·.isToken k) ≤ 1) (hu : .token u ∈ t.children) (hk : u.kind = k) :
    Catalog.childToken? t k = some u := by
  have hfound : Catalog.childToken? t k ≠ none := by
    intro hnone
    refine List.find?_eq_none.mp hnone u (List.mem_filterMap.mpr ⟨_, hu, rfl⟩) ?_
    rw [hk, beq_self_eq_true]
  obtain ⟨v, hv⟩ := Option.ne_none_iff_exists'.mp hfound
  obtain ⟨hv_mem, hv_kind⟩ := Catalog.of_childToken? hv
  have honly : ∀ w : Token, .token w ∈ t.children → w.kind = k →
      Tree.token w ∈ t.allChildren.filter (·.isToken k) := fun w hw hwk =>
    List.mem_filter.mpr ⟨(List.mem_filter.mp hw).1, by rw [isToken, kind, hwk]; exact beq_self_eq_true _⟩
  rw [List.countP_eq_length_filter] at h
  obtain ⟨w, hw⟩ := List.length_eq_one_iff.mp
    (Nat.le_antisymm h (List.length_pos_of_mem (honly u hu hk)))
  have hu_eq := honly u hu hk
  have hv_eq := honly v hv_mem hv_kind
  rw [hw, List.mem_singleton] at hu_eq hv_eq
  rw [hv, Tree.token.inj (hv_eq.trans hu_eq.symm)]

end Tree

/-! ### Declared names -/

namespace Analysis
variable {a : Analysis} {t : Token} {name : String}

/-- The names that declare a state and match a name, in document order. -/
def declarations (a : Analysis) (name : String) : List Token :=
  (a.identifiers.filter fun x => isStateDeclaration x.1 && namesMatch x.2.text name).map (·.2)

theorem mem_declarations : t ∈ a.declarations name ↔ a.Declares t ∧ namesMatch t.text name = true := by
  simp only [declarations, Declares, List.mem_map, List.mem_filter, Bool.and_eq_true, Prod.exists]
  constructor
  · rintro ⟨p, t, ⟨hmem, hdeclares, hmatch⟩, rfl⟩
    exact ⟨⟨p, hmem, hdeclares⟩, hmatch⟩
  · rintro ⟨⟨p, hmem, hdeclares⟩, hmatch⟩
    exact ⟨p, t, ⟨hmem, hdeclares, hmatch⟩, rfl⟩

section Source
variable {flavor : Flavor} {source : String}

theorem block_of_mem_states {s : StateSymbol} (hs : s ∈ (ofSource flavor source).catalog.states) :
    s.block ∈ (ofSource flavor source).parse.tree.nodes .stateBlock ∧
      s.declaration ∈ s.block.leaves := by
  obtain ⟨hmem, hnode, hchild, -⟩ := Catalog.of_mem_states hs
  refine ⟨List.mem_filter.mpr ⟨hmem, hnode⟩, ?_⟩
  exact Tree.leaves_subset _ (Tree.mem_subtrees_of_children s.block.self_mem_subtrees hchild) (by simp)

theorem spanOf?_block {s : StateSymbol} (hs : s ∈ (ofSource flavor source).catalog.states) :
    (ofSource flavor source).parse.spanOf? s.block = some s.block.extent := by
  obtain ⟨hmem, hnode⟩ := List.mem_filter.mp (block_of_mem_states hs).1
  exact Parse.spanOf?_eq_extent flavor source hmem (Tree.isNode_file_of_isNode hnode (by simp))

theorem exists_block_of_declares (h : (ofSource flavor source).Declares t) :
    ∃ block ∈ (ofSource flavor source).parse.tree.nodes .stateBlock,
      Catalog.childToken? block .identifier = some t := by
  obtain ⟨p, hp, hdeclares⟩ := h
  obtain ⟨hmem, htoken, hkind⟩ := mem_identifiers.mp hp
  have hparent : p.parentKind? = some .stateBlock := by
    rw [isStateDeclaration, Bool.and_eq_true] at hdeclares
    simpa using hdeclares.2
  obtain ⟨before, after, path, hplace⟩ := Place.exists_frame hparent
  rw [Tree.eq_token_of_token? htoken] at hplace
  have hin := Place.isIn_of_mem_descendants hmem
  rw [hplace] at hin
  have hblock := hin.around _ List.mem_cons_self
  dsimp only at hblock
  refine ⟨_, List.mem_filter.mpr ⟨hblock, rfl⟩, Tree.childToken?_eq_of_countP ?_ ?_ hkind⟩
  · exact ((Parse.isTolerated_tree flavor source).subtrees _ hblock).hasShape.name rfl
  · refine List.mem_filter.mpr ⟨List.mem_append_right _ List.mem_cons_self, ?_⟩
    simp [Tree.isHidden, Token.isHidden, hkind, TokenKind.isHidden, TokenKind.isTrivia]

theorem map_declaration_eq (flavor : Flavor) (source : String) :
    (ofSource flavor source).catalog.states.map (·.declaration) =
      ((ofSource flavor source).parse.tree.nodes .stateBlock).filterMap
        (Catalog.childToken? · .identifier) := by
  show (((QuestScript.parse flavor source).tree.nodes .stateBlock).filterMap Catalog.stateOf?).map _ = _
  rw [List.map_filterMap]
  refine List.filterMap_congr fun block _ => ?_
  rw [Catalog.stateOf?, Option.map_map]
  exact Option.map_id'

theorem map_declaration_sublist (flavor : Flavor) (source : String) :
    ((ofSource flavor source).catalog.states.map (·.declaration)).Sublist
      (QuestScript.parse flavor source).stream.significant := by
  rw [map_declaration_eq, ← Parse.leaves_tree]
  exact (Parse.isTolerated_tree flavor source).names_sublist

/-- **The states in the catalog are those whose names stand in the document**, in the same order. -/
theorem map_declaration_states (flavor : Flavor) (source : String) :
    (ofSource flavor source).catalog.states.map (·.declaration) =
      ((ofSource flavor source).identifiers.filter fun x => isStateDeclaration x.1).map (·.2) := by
  have hnodup : (QuestScript.parse flavor source).stream.significant.Nodup :=
    ((TokenStream.nodup_tokens flavor source).filter _).filter _
  have hnames : (((ofSource flavor source).identifiers.filter fun x =>
      isStateDeclaration x.1).map (·.2)).Sublist
      (QuestScript.parse flavor source).stream.significant := by
    refine (List.filter_sublist.map _).trans ?_
    rw [identifiers_ofSource, ← TokenStream.filter_significant]
    exact List.filter_sublist
  rw [← filter_mem_of_sublist (map_declaration_sublist flavor source) hnodup,
    ← filter_mem_of_sublist hnames hnodup]
  refine List.filter_congr fun t _ => decide_eq_decide.mpr ?_
  constructor
  · intro ht
    obtain ⟨s, hs, rfl⟩ := List.mem_map.mp ht
    obtain ⟨p, hp, hdeclares⟩ := declares_declaration hs
    exact List.mem_map.mpr ⟨(p, s.declaration), List.mem_filter.mpr ⟨hp, hdeclares⟩, rfl⟩
  · intro ht
    obtain ⟨⟨p, t⟩, hp, rfl⟩ := List.mem_map.mp ht
    obtain ⟨hmem, hdeclares⟩ := List.mem_filter.mp hp
    obtain ⟨block, hblock, hname⟩ := exists_block_of_declares ⟨p, hmem, hdeclares⟩
    rw [map_declaration_eq]
    exact List.mem_filterMap.mpr ⟨block, hblock, hname⟩

theorem statesNamed_eq (flavor : Flavor) (source name : String) :
    (ofSource flavor source).catalog.statesNamed name =
      (ofSource flavor source).catalog.states.filter (namesMatch ·.name name) :=
  List.filter_congr fun _ hs => lowercase_beq (declares_declaration hs).namesState.isAscii

/-- **A look-up goes through the declarations of the name**, in document order. -/
theorem map_declaration_statesNamed (flavor : Flavor) (source name : String) :
    ((ofSource flavor source).catalog.statesNamed name).map (·.declaration) =
      (ofSource flavor source).declarations name := by
  rw [statesNamed_eq]
  show List.map _ (List.filter ((namesMatch ·.text name) ∘ StateSymbol.declaration) _) = _
  rw [← List.filter_map, map_declaration_states, List.filter_map, List.filter_filter, declarations]
  refine congrArg (List.map _) (List.filter_congr fun x _ => ?_)
  exact Bool.and_comm ..

theorem head?_declarations {name : String} {s : StateSymbol}
    (h : (ofSource flavor source).catalog.lookup? .state name = some (.state s)) :
    ((ofSource flavor source).declarations name).head? = some s.declaration := by
  obtain ⟨s', hs', heq⟩ := Option.map_eq_some_iff.mp h
  obtain rfl := Symbol.state.inj heq
  rw [← map_declaration_statesNamed, List.head?_map, hs']
  rfl

end Source

end Analysis

end QuestScript
