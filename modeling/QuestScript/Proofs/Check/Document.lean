import QuestScript.Proofs.Check.Statement
import QuestScript.Proofs.Exact

/-! # The walk over a document

What the checks of a block find (`checkPlace_mainBlock`, `checkPlace_stateBlock`), and what the walk
over the tree of a quest finds: what there is at its sites, and then that a main block is missing
(`check_eq`). -/

namespace QuestScript

open Ast

namespace Keyword

theorem lowercase_spelling (k : Keyword) : lowercase k.spelling = k.spelling := by
  rw [← String.toList_inj, toList_lowercase k.isAscii_spelling, k.lower_spelling]

end Keyword

namespace Checker
variable {c : Checker} {seen : Bool} {path : List Frame} {flavor : Flavor}

theorem Knows.lowercase_text {t : Token} {k : Keyword} (h : c.Knows t) (hk : t.kind = .keyword k) :
    lowercase t.text = k.spelling := by
  have hsame := h.spelled k hk
  have hascii := Ascii.isAscii_of_sameWord hsame k.isAscii_spelling
  rw [← String.toList_inj, toList_lowercase hascii, ← Ascii.sameWord_iff.mp hsame, k.lower_spelling]

/-! ### Main blocks -/

theorem firstToken_eq {t : Tree} {u : Token} {us : List Token} (h : t.leaves = u :: us)
    (hu : u.isSignificant = true) : t.firstToken? = some u := by
  rw [Tree.firstToken?, h, List.find?_cons_of_pos hu]

theorem exists_leaves_attribute (x : Attribute Word) :
    ∃ t us, x.toTree.leaves = t :: us ∧ t.kind = .keyword x.keyword := by
  rw [x.leaves_toTree]
  cases x with
  | questName keyword value close => exact ⟨keyword.1, _, rfl, keyword.2⟩
  | version keyword value close => exact ⟨keyword.1, _, rfl, keyword.2⟩
  | flag f keyword close => exact ⟨keyword.1, _, rfl, keyword.2⟩

/-- **The attributes found to be repeated** are those whose keyword occurs before. -/
theorem repeatedAttributes_eq (seen : List Keyword) {xs : List (Attribute Word)}
    (h : ∀ x ∈ xs, ∀ u ∈ x.toTree.leaves, c.Knows u) :
    repeatedAttributes (seen.map Keyword.spelling) (xs.map Attribute.toTree) =
      (repeated seen xs).map fun x => (x.keyword.spelling, x.toTree) := by
  induction xs generalizing seen with
  | nil => rfl
  | cons x xs ih =>
    obtain ⟨t, us, hleaves, hkind⟩ := exists_leaves_attribute x
    have ht : c.Knows t := h x (by simp) t (by rw [hleaves]; simp)
    have hmore : ∀ y ∈ xs, ∀ u ∈ y.toTree.leaves, c.Knows u := fun y hy => h y (by simp [hy])
    have hseen : (seen.map Keyword.spelling).contains x.keyword.spelling = decide (x.keyword ∈ seen) := by
      rw [List.contains_eq_mem]
      refine decide_eq_decide.mpr ⟨fun hmem => ?_, List.mem_map_of_mem⟩
      obtain ⟨k, hk, hspelling⟩ := List.mem_map.mp hmem
      exact Keyword.spelling_inj hspelling ▸ hk
    rw [List.map_cons, repeatedAttributes, firstToken_eq hleaves ht.significant]
    dsimp only
    rw [ht.lowercase_text hkind, hseen, repeated]
    by_cases hmem : x.keyword ∈ seen
    · rw [if_pos hmem, decide_eq_true hmem, if_pos rfl, ih seen hmore, List.map_cons]
    · rw [if_neg hmem, decide_eq_false hmem, if_neg (by simp), ← List.map_cons, ih _ hmore]

theorem repeated_subset (seen : List Keyword) (xs : List (Attribute Word)) :
    ∀ x ∈ repeated seen xs, x ∈ xs := by
  induction xs generalizing seen with
  | nil => simp [repeated]
  | cons y xs ih =>
    intro x hx
    unfold repeated at hx
    split at hx
    · rcases List.mem_cons.mp hx with rfl | hx
      · exact List.mem_cons_self
      · exact List.mem_cons_of_mem _ (ih _ x hx)
    · exact List.mem_cons_of_mem _ (ih _ x hx)

theorem isHidden_map {β : Type} {tree : β → Tree} (h : ∀ x, (tree x).isHidden = false) (xs : List β) :
    ∀ t ∈ xs.map tree, t.isHidden = false := by
  intro t ht
  obtain ⟨x, -, rfl⟩ := List.mem_map.mp ht
  exact h x

theorem filter_map_nodes {β : Type} {tree : β → Tree} {k : NodeKind}
    (h : ∀ x, (tree x).isNode k = true) (xs : List β) :
    (xs.map tree).filter (·.isNode k) = xs.map tree := by
  refine List.filter_eq_self.mpr fun t ht => ?_
  obtain ⟨x, -, rfl⟩ := List.mem_map.mp ht
  exact h x

theorem children_mainBlock (x : MainBlock Word) :
    x.toTree.children = x.keyword.tree :: x.opening.tree ::
      (x.attributes.map Attribute.toTree ++ [x.closing.tree]) := by
  refine Tree.children_node fun t ht => ?_
  simp only [List.mem_cons, List.mem_append, List.not_mem_nil, or_false] at ht
  rcases ht with rfl | rfl | ht | rfl
  · exact x.keyword.isHidden_tree
  · exact x.opening.isHidden_tree
  · exact isHidden_map (fun _ => rfl) x.attributes t ht
  · exact x.closing.isHidden_tree

theorem attributes_mainBlock (x : MainBlock Word) :
    x.toTree.children.filter (·.isNode .mainAttribute) = x.attributes.map Attribute.toTree := by
  have hattributes : (x.attributes.map Attribute.toTree).filter (·.isNode .mainAttribute) =
      x.attributes.map Attribute.toTree := filter_map_nodes (fun _ => rfl) x.attributes
  rw [children_mainBlock, List.filter_cons_of_neg (by simp [Word.tree, Tree.isNode, Tree.kind]),
    List.filter_cons_of_neg (by simp [Word.tree, Tree.isNode, Tree.kind]), List.filter_append,
    hattributes, List.filter_cons_of_neg (by simp [Word.tree, Tree.isNode, Tree.kind]),
    List.filter_nil, List.append_nil]

theorem checkPlace_mainBlock {x : MainBlock Word}
    (hknown : ∀ u ∈ x.leaves.map Leaf.token, c.Knows u) :
    c.checkPlace seen ⟨x.toTree, path⟩ = ⟨mainFindings seen x, none⟩ := by
  have hleaves := x.leaves_toTree
  have hblock := spanOf_eq (c := c) (t := x.toTree) (by rw [hleaves]; simp [MainBlock.leaves])
    (by rw [hleaves]; exact hknown)
  have hkeyword : c.Knows x.keyword.1 := hknown _ (by simp [MainBlock.leaves])
  have hchild : x.toTree.child? 0 = some x.keyword.tree := by
    rw [Tree.child?, children_mainBlock]
    rfl
  have hredeclared : (if seen then c.redeclaredMain ⟨x.toTree, path⟩ else .nothing) =
      ⟨if seen then [.fixable x.keyword.1.span .duplicateMain "Remove duplicate 'main' block"
        (.delete x.toTree.extent)] else [], none⟩ := by
    unfold redeclaredMain
    simp only [hchild, hblock, Word.tree, hkeyword.spanOf]
    cases seen <;> rfl
  have hattributes : ∀ y ∈ x.attributes, ∀ u ∈ y.toTree.leaves, c.Knows u := by
    intro y hy u hu
    rw [y.leaves_toTree] at hu
    obtain ⟨l, hl, rfl⟩ := List.mem_map.mp hu
    refine hknown _ (List.mem_map_of_mem ?_)
    exact List.mem_append_right _ (List.mem_append_left _ (List.mem_flatMap.mpr ⟨y, hy, hl⟩))
  have hrepeated : Report.all ((repeatedAttributes [] (x.attributes.map Attribute.toTree)).map
      fun a => c.repeatedAttribute a.1 a.2) =
      ⟨(repeated [] x.attributes).map attributeFinding, none⟩ := by
    have hlist := repeatedAttributes_eq [] hattributes
    rw [List.map_nil] at hlist
    rw [hlist, List.map_map, List.map_eq_flatMap (f := attributeFinding)]
    refine Report.all_found fun y hy => ?_
    have hy' := repeated_subset [] x.attributes y hy
    obtain ⟨t, us, ht, -⟩ := exists_leaves_attribute y
    have hspan := spanOf_eq (c := c) (t := y.toTree) (by rw [ht]; simp) (hattributes y hy')
    simp only [Function.comp_apply, repeatedAttribute, hspan]
    rfl
  show c.checkMainBlock seen ⟨x.toTree, path⟩ = _
  unfold checkMainBlock
  simp only [attributes_mainBlock]
  rw [hredeclared, hrepeated]
  rfl

/-! ### States -/

theorem children_stateBlock (x : StateBlock Word flavor) :
    x.toTree.children = x.keyword.tree :: x.name.tree :: x.opening.tree ::
      (x.statements.map Statement.toTree ++ [x.closing.tree]) := by
  refine Tree.children_node fun t ht => ?_
  simp only [List.mem_cons, List.mem_append, List.not_mem_nil, or_false] at ht
  rcases ht with rfl | rfl | rfl | ht | rfl
  · exact x.keyword.isHidden_tree
  · exact x.name.isHidden_tree
  · exact x.opening.isHidden_tree
  · exact isHidden_map (fun _ => rfl) x.statements t ht
  · exact x.closing.isHidden_tree

theorem isNode_inner (x : Statement Word flavor) : x.inner.isNode .description = x.isDescription := by
  cases x with
  | conditional condition keyword first second close => cases condition <;> rfl
  | unconditional u keyword effect close => cases u <;> rfl
  | _ => rfl

theorem leaves_inner (x : Statement Word flavor) : x.inner.leaves = x.leaves.map Leaf.token := by
  have h := x.leaves_toTree
  rw [Statement.toTree, Tree.leaves_node, Tree.leavesOf_cons, Tree.leavesOf_nil,
    List.append_nil] at h
  exact h

theorem leaves_ne_nil (x : Statement Word flavor) : x.leaves ≠ [] := by
  cases x <;> simp [Statement.leaves]

theorem descriptions_stateBlock (x : StateBlock Word flavor) :
    descriptions x.toTree = (x.statements.filter (·.isDescription)).map Statement.inner := by
  have hstatements : (x.statements.map Statement.toTree).filter (·.isNode .statement) =
      x.statements.map Statement.toTree := filter_map_nodes (fun _ => rfl) x.statements
  have hinner : (x.statements.map Statement.toTree).filterMap (·.child? 0) =
      x.statements.map Statement.inner := by
    rw [List.filterMap_map, ← List.filterMap_eq_map]
    refine congrArg (fun f => x.statements.filterMap f) (funext fun y => ?_)
    have hhidden : y.inner.isHidden = false := by cases y <;> rfl
    rw [Function.comp_apply, Tree.child?, Statement.toTree, Tree.children_node]
    · rfl
    · intro t ht
      rw [List.mem_singleton.mp ht, hhidden]
  rw [descriptions, children_stateBlock,
    List.filter_cons_of_neg (by simp [Word.tree, Tree.isNode, Tree.kind]),
    List.filter_cons_of_neg (by simp [Word.tree, Tree.isNode, Tree.kind]),
    List.filter_cons_of_neg (by simp [Word.tree, Tree.isNode, Tree.kind]), List.filter_append,
    hstatements, List.filter_cons_of_neg (by simp [Word.tree, Tree.isNode, Tree.kind]),
    List.filter_nil, List.append_nil, hinner, List.filter_map]
  refine congrArg (List.map Statement.inner) (List.filter_congr fun y _ => ?_)
  exact isNode_inner y

theorem checkStateName_eq {name : Token} (hname : c.Knows name) :
    c.checkStateName name = ⟨c.stateNameFindings name, none⟩ := by
  unfold checkStateName stateNameFindings
  rcases c.catalog.statesNamed name.text with _ | ⟨first, _ | ⟨second, more⟩⟩
  · rfl
  · rfl
  · rw [hname.spanOf]
    by_cases hfirst : first.declaration = name
    · simp only [if_pos hfirst]
      rfl
    · simp only [if_neg hfirst]
      rfl

theorem checkPlace_stateBlock {x : StateBlock Word flavor}
    (hknown : ∀ u ∈ x.leaves.map Leaf.token, c.Knows u) :
    c.checkPlace seen ⟨x.toTree, path⟩ = ⟨c.stateFindings x, none⟩ := by
  have hname : c.Knows x.name.1 := hknown _ (by simp [StateBlock.leaves])
  have hchild : (x.toTree.child? 1).bind Tree.token? = some x.name.1 := by
    rw [Tree.child?, children_stateBlock]
    rfl
  have hstatements : ∀ y ∈ x.statements, ∀ u ∈ y.inner.leaves, c.Knows u := by
    intro y hy u hu
    rw [leaves_inner] at hu
    obtain ⟨l, hl, rfl⟩ := List.mem_map.mp hu
    refine hknown _ (List.mem_map_of_mem ?_)
    exact List.mem_append_right _ (List.mem_append_left _ (List.mem_flatMap.mpr ⟨y, hy, hl⟩))
  have hrepeated : Report.all (((descriptions x.toTree).drop 1).map c.repeatedDescription) =
      ⟨((x.statements.filter (·.isDescription)).drop 1).map descriptionFinding, none⟩ := by
    rw [descriptions_stateBlock, ← List.map_drop, List.map_map,
      List.map_eq_flatMap (f := descriptionFinding)]
    refine Report.all_found fun y hy => ?_
    have hy' : y ∈ x.statements := (List.mem_filter.mp (List.mem_of_mem_drop hy)).1
    have hspan := spanOf_eq (c := c) (t := y.inner) (by rw [leaves_inner]; simp [leaves_ne_nil])
      (hstatements y hy')
    simp only [Function.comp_apply, repeatedDescription, hspan]
    rfl
  show c.checkStateBlock ⟨x.toTree, path⟩ = _
  unfold checkStateBlock
  simp only [hchild, x.name.2, if_pos, checkStateName_eq hname, hrepeated]
  rfl

/-! ### Walks over blocks -/

section Walks
variable {after : Bool} {k : NodeKind} {before rest : List Tree} {gs : List Finding}

/-- A walk over children that are of one sort. -/
theorem walks_map {β : Type} {tree : β → Tree} {found : β → List Finding} {xs : List β}
    {all : List Tree} (hall : before.reverse ++ (xs.map tree ++ rest) = all)
    (hxs : ∀ x ∈ xs, ∀ us vs, us.reverse ++ tree x :: vs = all →
      Walks c seen (Place.within (⟨k, us, vs⟩ :: path) (tree x)) (found x) seen)
    (hrest : Walks c seen (Place.withinAll k path ((xs.map tree).reverse ++ before) rest) gs after) :
    Walks c seen (Place.withinAll k path before (xs.map tree ++ rest)) (xs.flatMap found ++ gs)
      after := by
  induction xs generalizing before with
  | nil => exact hrest
  | cons x xs ih =>
    rw [List.map_cons, List.cons_append, List.flatMap_cons, List.append_assoc]
    refine walks_child (hxs x (by simp) _ _ hall) (ih ?_ ?_ ?_)
    · rw [← hall]
      simp
    · exact fun y hy => hxs y (by simp [hy])
    · rw [List.map_cons, List.reverse_cons, List.append_assoc] at hrest
      exact hrest

theorem isQuiet_attribute (x : Attribute Word) : x.toTree.isQuiet = true := by
  cases x with
  | questName keyword value close => cases close <;> rfl
  | version keyword value close => cases close <;> rfl
  | flag f keyword close => cases f <;> cases close <;> rfl

theorem walks_attribute {x : Attribute Word} (hknown : ∀ u ∈ x.leaves.map Leaf.token, c.Knows u) :
    Walks c seen (Place.within path x.toTree) ((x.leaves.map Leaf.token).flatMap c.keywordFindings)
      seen := by
  have hleaves := x.leaves_toTree
  rw [Attribute.toTree, Tree.leaves_node] at hleaves
  rw [Attribute.toTree, ← hleaves]
  exact walks_quietNode rfl (isQuiet_attribute x) (by rw [hleaves]; exact hknown)

theorem walks_mainBlock {x : MainBlock Word} (hknown : ∀ u ∈ x.leaves.map Leaf.token, c.Knows u) :
    Walks c seen (Place.within path x.toTree)
      (mainFindings seen x ++ (x.leaves.map Leaf.token).flatMap c.keywordFindings) true := by
  have hplace : Walks c seen [⟨x.toTree, path⟩] (mainFindings seen x) (seen || true) :=
    walks_place (checkPlace_mainBlock hknown)
  rw [Bool.or_true] at hplace
  rw [MainBlock.toTree, Place.within]
  refine hplace.append ?_
  simp only [MainBlock.leaves, List.map_cons, List.map_append, List.map_nil, List.cons_append,
    List.nil_append, List.forall_mem_cons, List.forall_mem_append, List.flatMap_cons,
    List.flatMap_append] at hknown ⊢
  obtain ⟨hkeyword, hopening, hattributes, hclosing, -⟩ := hknown
  rw [List.map_flatMap, List.flatMap_assoc]
  refine walks_child (walks_word hkeyword (classify_block _ (.inl rfl))) ?_
  refine walks_child (walks_word hopening (classify_block _ (.inl rfl))) ?_
  refine walks_map rfl ?_ (walks_child (walks_word hclosing (classify_block _ (.inl rfl))) walks_nil)
  intro y hy us vs _
  refine walks_attribute fun u hu => hattributes u ?_
  rw [List.map_flatMap]
  exact List.mem_flatMap.mpr ⟨y, hy, hu⟩

theorem walks_stateBlock {x : StateBlock Word flavor} (hflavor : c.parse.flavor = flavor)
    (hknown : ∀ u ∈ x.leaves.map Leaf.token, c.Knows u) :
    Walks c seen (Place.within path x.toTree) (x.sites.flatMap (Site.findings c)) seen := by
  have hplace : c.checkPlace seen ⟨x.toTree, path⟩ = ⟨c.stateFindings x, none⟩ :=
    checkPlace_stateBlock hknown
  have hspan : c.parse.spanOf x.toTree = .ok x.toTree.extent := by
    refine spanOf_eq ?_ ?_
    · rw [x.leaves_toTree]
      simp [StateBlock.leaves]
    · rw [x.leaves_toTree]
      exact hknown
  have hstop : x.toTree.extent.stop = x.stop := by
    rw [Tree.extent, x.leaves_toTree, StateBlock.leaves, List.map_append, List.map_append,
      ← List.append_assoc, List.map_singleton, List.getLast?_concat]
    rfl
  simp only [StateBlock.sites, List.flatMap_cons, List.flatMap_append, findings_wordSites]
  refine walks_node hplace (by simp) ?_
  simp only [StateBlock.leaves, List.map_cons, List.map_append, List.map_nil, List.cons_append,
    List.nil_append, List.forall_mem_cons, List.forall_mem_append, List.flatMap_cons,
    List.flatMap_nil, List.append_assoc] at hknown ⊢
  obtain ⟨hkeyword, hname, hopening, hstatements, hclosing, -⟩ := hknown
  refine walks_child (walks_word hkeyword (classify_block _ (.inr rfl))) ?_
  refine walks_child (walks_word hname (classify_block _ (.inr rfl))) ?_
  refine walks_child (walks_word hopening (classify_block _ (.inr rfl))) ?_
  rw [List.flatMap_assoc]
  refine walks_map rfl ?_ (walks_child (walks_word hclosing (classify_block _ (.inr rfl))) walks_nil)
  intro y hy us vs hall
  refine walks_statement hflavor ?_ fun u hu => hstatements u ?_
  · rw [← hstop]
    refine EndsAt.of_stateBlock ?_
    rw [hall]
    exact hspan
  · rw [List.map_flatMap]
    exact List.mem_flatMap.mpr ⟨y, hy, hu⟩

end Walks

/-! ### The walk over a document -/

theorem walks_block {x : Block Word flavor} (hflavor : c.parse.flavor = flavor)
    (hknown : ∀ u ∈ x.leaves.map Leaf.token, c.Knows u) :
    Walks c seen (Place.within path x.toTree) ((x.sites seen).flatMap (Site.findings c))
      (x.seenAfter seen) := by
  refine walks_unchecked rfl (by simp) (walks_only ?_)
  cases x with
  | main x =>
    rw [Block.sites, List.flatMap_cons, findings_wordSites, Block.seenAfter, Block.main?,
      Option.isSome_some, Bool.or_true]
    exact walks_mainBlock hknown
  | state x =>
    rw [Block.sites, Block.seenAfter, Block.main?, Option.isSome_none, Bool.or_false]
    exact walks_stateBlock hflavor hknown

theorem walks_blocks {xs : List (Block Word flavor)} {before : List Tree}
    (hflavor : c.parse.flavor = flavor)
    (hknown : ∀ u ∈ (xs.flatMap Block.leaves).map Leaf.token, c.Knows u) :
    Walks c seen (Place.withinAll .file path before (xs.map Block.toTree))
      ((sitesFrom seen xs).flatMap (Site.findings c)) (xs.foldl Block.seenAfter seen) := by
  induction xs generalizing seen before with
  | nil => exact walks_nil
  | cons x xs ih =>
    rw [List.flatMap_cons, List.map_append, List.forall_mem_append] at hknown
    rw [List.map_cons, sitesFrom, List.flatMap_append, List.foldl_cons]
    exact walks_child (walks_block hflavor hknown.1) (ih hknown.2)

theorem foldl_seenAfter (xs : List (Block Word flavor)) (seen : Bool) :
    xs.foldl Block.seenAfter seen = (seen || !(xs.filterMap Block.main?).isEmpty) := by
  induction xs generalizing seen with
  | nil => simp
  | cons x xs ih => cases x <;> simp [ih, Block.seenAfter, Block.main?, List.filterMap_cons]

/-! ### No token is passed over -/

mutual
theorem isError_within : ∀ (t : Tree) (path : List Frame),
    (∀ u ∈ t.subtrees, u.isNode .error = false) → (∀ f ∈ path.head?, f.kind ≠ .error) →
      ∀ p ∈ Place.within path t, p.isError = false
  | .token t, path, _, hpath, p, hp => by
    rw [Place.within, List.mem_singleton] at hp
    rw [hp]
    cases path with
    | nil => rfl
    | cons f path =>
      have hf : f.kind ≠ .error := hpath f rfl
      show (some f.kind == some .error) = false
      simpa using hf
  | .node k cs, path, ht, _, p, hp => by
    rw [Tree.subtrees, List.forall_mem_cons] at ht
    have hk : k ≠ .error := by simpa [Tree.isNode, Tree.kind] using ht.1
    rw [Place.within, List.mem_cons] at hp
    rcases hp with rfl | hp
    · simpa [Place.isError] using hk
    · exact isError_withinAll cs k path [] hk ht.2 p hp
theorem isError_withinAll : ∀ (cs : List Tree) (k : NodeKind) (path : List Frame)
    (before : List Tree), k ≠ .error → (∀ u ∈ Tree.subtreesOf cs, u.isNode .error = false) →
      ∀ p ∈ Place.withinAll k path before cs, p.isError = false
  | [], k, path, before, _, _, p, hp => by
    rw [Place.withinAll] at hp
    cases hp
  | t :: cs, k, path, before, hk, hcs, p, hp => by
    rw [Tree.subtreesOf, List.forall_mem_append] at hcs
    rw [Place.withinAll, List.mem_append] at hp
    rcases hp with hp | hp
    · exact isError_within t _ hcs.1 (by simpa using hk) p hp
    · exact isError_withinAll cs k path _ hk hcs.2 p hp
end

end Checker

/-! ### The findings of a quest -/

/-- What is found in a quest: what there is at its sites, and that a main block is missing. -/
def Ast.Quest.findings {flavor : Flavor} (c : Checker) (q : Quest Word flavor) : List Finding :=
  q.sites.flatMap (Site.findings c) ++ (if q.mains = [] then c.checkMainExists.findings else [])

theorem Checker.checkPlaces_quest {flavor : Flavor} {c : Checker} {q : Quest Word flavor}
    (hflavor : c.parse.flavor = flavor) (hknown : ∀ u ∈ q.tokens, c.Knows u) :
    c.checkPlaces false (Place.within [] q.toTree) = ⟨q.findings c, none⟩ := by
  have hwalk : c.Walks false (Place.within [] q.toTree) (q.sites.flatMap (Site.findings c))
      (q.blocks.foldl Block.seenAfter false) :=
    walks_unchecked rfl (by simp) (walks_blocks hflavor hknown)
  have hrest := hwalk []
  rw [List.append_nil, foldl_seenAfter, Bool.false_or, checkPlaces] at hrest
  rw [hrest, Quest.findings]
  change Report.andThen _ (if (!q.mains.isEmpty) = true then _ else _) = _
  by_cases hmains : q.mains = []
  · rw [if_neg (by simp [hmains]), if_pos hmains, Report.andThen, c.aborted_checkMainExists]
  · rw [if_pos (by simp [hmains]), if_neg hmains]
    rfl

namespace Parse
variable {flavor : Flavor} {source : String} {q : Quest Word flavor}

/-- **The semantic findings of a document that is a quest** are those at the sites of the quest, and
that its main block is missing. -/
theorem check_eq (herrors : (parse flavor source).errors = [])
    (htree : (parse flavor source).tree = q.toTree)
    (htokens : (parse flavor source).stream.significant = q.tokens) (casings : List String) :
    (parse flavor source).check casings =
      ⟨q.findings ((parse flavor source).checker casings), none⟩ := by
  have hplaces : ((parse flavor source).checker casings).places =
      Place.within [] (parse flavor source).tree := by
    refine List.filter_eq_self.mpr fun p hp => ?_
    have hderivation : (parse flavor source).tree.IsDerivation flavor :=
      Grammar.isDerivation_of_errors_eq_nil herrors
    rw [Checker.isError_within _ [] hderivation.subtrees_ne_error (by simp) p hp]
    rfl
  show Checker.checkPlaces _ false (Checker.places _) = _
  rw [hplaces, htree]
  refine Checker.checkPlaces_quest rfl fun u hu => Checker.knows_of_mem rfl ?_
  rw [htokens]
  exact hu

end Parse

end QuestScript
