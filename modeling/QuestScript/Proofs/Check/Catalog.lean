import QuestScript.Proofs.Check.Document

/-! # The catalog of a quest

The built-ins of a flavor have names of their own, even if letter case is ignored, so a look-up finds
the built-in that it is meant to find (`Builtin.find?_eq`). The states in the catalog of a document are
those of the quest that it is, with their descriptions (`states_eq`). -/

namespace QuestScript

open Ast

/-! ### Built-ins -/

namespace Builtin

/-- The rules or the actions of a flavor. -/
def ofKind (flavor : Flavor) : SymbolKind → List Builtin
  | .rule => rules flavor
  | .action => actions flavor
  | .state => []

variable {flavor : Flavor} {kind : SymbolKind} {b : Builtin}

theorem nodup_ofKind (flavor : Flavor) (kind : SymbolKind) :
    ((ofKind flavor kind).map fun b => b.name.toList.map Char.toLower).Nodup := by
  cases flavor <;> cases kind <;> decide +kernel

theorem name_isWord (h : b ∈ ofKind flavor kind) :
    Lexeme.IsWordText b.name.toList ∧ Lexeme.wordKind flavor b.name.toList = .identifier := by
  have hall : ∀ b ∈ ofKind flavor kind, (b.name.toList.head?.any Lexeme.startsWord &&
      b.name.toList.all Lexeme.isWordChar && (Keyword.ofWord? flavor b.name.toList).isNone) = true := by
    cases flavor <;> cases kind <;> decide +kernel
  obtain ⟨hword, hkeyword⟩ := Bool.and_eq_true_iff.mp (hall b h)
  refine ⟨Lexeme.isWordText_of_all hword, ?_⟩
  rw [Lexeme.wordKind, Option.isNone_iff_eq_none.mp hkeyword]

theorem isAscii_name (h : b ∈ ofKind flavor kind) : IsAscii b.name.toList :=
  (name_isWord h).1.isAscii

/-- **The first built-in with a name is the only one.** -/
theorem find?_eq {text : String} (htext : IsAscii text.toList) (h : b ∈ ofKind flavor kind)
    (hname : namesMatch b.name text = true) :
    (ofKind flavor kind).find? (namesMatch ·.name text) = some b := by
  cases hfind : (ofKind flavor kind).find? (namesMatch ·.name text) with
  | none => exact absurd hname (List.find?_eq_none.mp hfind b h)
  | some a =>
    have ha := List.mem_of_find?_eq_some hfind
    have haname := List.find?_some hfind
    rw [namesMatch_eq_sameWord (isAscii_name ha) htext, Ascii.sameWord_iff] at haname
    rw [namesMatch_eq_sameWord (isAscii_name h) htext, Ascii.sameWord_iff] at hname
    have heq := List.inj_on_of_nodup_map (nodup_ofKind flavor kind) ha h (haname.trans hname.symm)
    rw [heq]

end Builtin

namespace Catalog
variable {catalog : Catalog}

theorem lookup?_builtin {kind : SymbolKind} (h : kind ≠ .state) (name : String) :
    catalog.lookup? kind name =
      ((Builtin.ofKind catalog.flavor kind).find? (namesMatch ·.name name)).map .builtin := by
  cases kind with
  | rule => rfl
  | action => rfl
  | state => exact absurd rfl h

theorem names_builtin {kind : SymbolKind} (h : kind ≠ .state) :
    catalog.names kind = (Builtin.ofKind catalog.flavor kind).map Builtin.name := by
  cases kind with
  | rule => exact List.map_map
  | action => exact List.map_map
  | state => exact absurd rfl h

theorem names_state : catalog.names .state = catalog.states.map StateSymbol.name :=
  List.map_map

end Catalog

/-! ### Nodes of a kind -/

theorem Catalog.of_childToken? {t : Tree} {k : TokenKind} {u : Token}
    (h : childToken? t k = some u) : .token u ∈ t.children ∧ u.kind = k := by
  obtain ⟨c, hc, hct⟩ := List.mem_filterMap.mp (List.mem_of_find?_eq_some h)
  have hkind : u.kind = k := by simpa using List.find?_some h
  cases c with
  | token s =>
    obtain rfl : s = u := Option.some.inj hct
    exact ⟨hc, hkind⟩
  | node n cs => cases hct

theorem Catalog.of_mem_states {t : Tree} {s : StateSymbol}
    (hs : s ∈ (t.subtrees.filter (·.isNode .stateBlock)).filterMap stateOf?) :
    s.block ∈ t.subtrees ∧ s.block.isNode .stateBlock = true ∧
      .token s.declaration ∈ s.block.children ∧ s.declaration.kind = .identifier := by
  obtain ⟨block, hblock, hs⟩ := List.mem_filterMap.mp hs
  obtain ⟨hmem, hnode⟩ := List.mem_filter.mp hblock
  obtain ⟨name, hname, rfl⟩ := Option.map_eq_some_iff.mp hs
  exact ⟨hmem, hnode, of_childToken? hname⟩

/-- The second of two words is found by its kind. -/
theorem Catalog.childToken?_second (n : NodeKind) {j k : TokenKind} (v : Word j) (w : Word k)
    (cs : List Tree) (hj : j.isHidden = false) (hk : k.isHidden = false) (h : j ≠ k) :
    childToken? (.node n (v.tree :: w.tree :: cs)) k = some w.1 := by
  have hv : (!v.tree.isHidden) = true := by rw [v.isHidden_tree, hj]; rfl
  have hw : (!w.tree.isHidden) = true := by rw [w.isHidden_tree, hk]; rfl
  rw [childToken?, Tree.children, Tree.allChildren,
    List.filter_cons_of_pos (p := fun t : Tree => !t.isHidden) hv,
    List.filter_cons_of_pos (p := fun t : Tree => !t.isHidden) hw]
  show List.find? _ (v.1 :: w.1 :: _) = _
  rw [List.find?_cons_of_neg (by simpa [v.2] using h), List.find?_cons_of_pos (by simp [w.2])]

namespace Tree

/-- The nodes of a kind in and below a tree. -/
def nodes (k : NodeKind) (t : Tree) : List Tree := t.subtrees.filter (·.isNode k)

/-- The nodes of a kind in and below several trees. -/
def nodesOf (k : NodeKind) (ts : List Tree) : List Tree := (subtreesOf ts).filter (·.isNode k)

variable {k : NodeKind}

@[simp] theorem nodesOf_nil : nodesOf k [] = [] := by simp [nodesOf, subtreesOf]

@[simp] theorem nodesOf_cons (t : Tree) (ts : List Tree) :
    nodesOf k (t :: ts) = t.nodes k ++ nodesOf k ts := by
  simp [nodesOf, nodes, subtreesOf]

@[simp] theorem nodesOf_append (ts us : List Tree) :
    nodesOf k (ts ++ us) = nodesOf k ts ++ nodesOf k us := by
  induction ts with
  | nil => simp
  | cons t ts ih => simp [ih]

@[simp] theorem nodes_token (t : Token) : (token t).nodes k = [] := by
  simp [nodes, subtrees, isNode, kind]

theorem nodes_node (n : NodeKind) (cs : List Tree) :
    (node n cs).nodes k = if n = k then node n cs :: nodesOf k cs else nodesOf k cs := by
  by_cases hk : n = k <;> simp [nodes, nodesOf, subtrees, isNode, kind, hk]

end Tree

namespace Ast
variable {flavor : Flavor} {k : NodeKind}

@[simp] theorem Word.nodes_tree {n : TokenKind} (w : Word n) : w.tree.nodes k = [] :=
  Tree.nodes_token w.1

@[simp] theorem nodesOf_closeTrees (close : Option (Word .semicolon)) :
    Tree.nodesOf k (closeTrees close) = [] := by
  cases close <;> simp [closeTrees]

theorem nodesOf_map {β : Type} {tree : β → Tree} (h : ∀ x, (tree x).nodes k = []) (xs : List β) :
    Tree.nodesOf k (xs.map tree) = [] := by
  induction xs with
  | nil => exact Tree.nodesOf_nil
  | cons x xs ih => rw [List.map_cons, Tree.nodesOf_cons, h, ih, List.append_nil]

/-- The kinds of the nodes in an operand of a statement. -/
def operandKinds : List NodeKind :=
  [.expression, .invocationExpression, .gotoExpression, .argumentList, .arguments,
    .argumentExpression, .literal]

section Operand
variable (hk : k ∉ operandKinds)
include hk

theorem nodes_of_operandKind {n : NodeKind} (hn : n ∈ operandKinds) (cs : List Tree) :
    (Tree.node n cs).nodes k = Tree.nodesOf k cs := by
  rw [Tree.nodes_node, if_neg]
  rintro rfl
  exact hk hn

theorem nodes_argumentTree (f : Flavor) (t : Token) :
    (Grammar.argumentTree (Grammar.argumentKind f) t).nodes k = [] := by
  have hwrapper : Grammar.argumentKind f ∈ operandKinds := by cases f <;> decide
  rw [Grammar.argumentTree, nodes_of_operandKind hk hwrapper, Tree.nodesOf_cons, Grammar.literalTree,
    nodes_of_operandKind hk (by decide)]
  simp

theorem ArgumentList.nodes_toTree (f : Flavor) (x : ArgumentList Word) :
    (x.toTree (Grammar.argumentKind f)).nodes k = [] := by
  have hcommas : ∀ more : List (Word .comma × Literal Word),
      Tree.nodesOf k (more.flatMap (commaTrees (Grammar.argumentKind f))) = [] := by
    intro more
    induction more with
    | nil => simp
    | cons y more ih => simp [commaTrees, nodes_argumentTree hk, ih]
  rw [toTree, nodes_of_operandKind hk (by decide)]
  rcases x.arguments with _ | ⟨first, more⟩
  · simp [innerTrees]
  · have harguments : NodeKind.arguments ∈ operandKinds := by decide
    simp [innerTrees, nodes_of_operandKind hk harguments, nodes_argumentTree hk, hcommas]

theorem Expression.nodes_toTree (x : Expression Word) : x.toTree.nodes k = [] := by
  rw [toTree, nodes_of_operandKind hk (by decide), Tree.nodesOf_cons, Tree.nodesOf_nil,
    List.append_nil]
  cases x with
  | invocation x =>
    rw [inner, nodes_of_operandKind hk (by decide)]
    simp [ArgumentList.nodes_toTree hk]
  | goto keyword target =>
    rw [inner, nodes_of_operandKind hk (by decide)]
    simp
  | literal x =>
    rw [inner, Grammar.literalTree, nodes_of_operandKind hk (by decide)]
    simp

end Operand

/-! ### States -/

theorem Statement.stateBlocks_toTree (x : Statement Word flavor) :
    x.toTree.nodes .stateBlock = [] := by
  have hstate : NodeKind.stateBlock ∉ operandKinds := by decide
  cases x with
  | conditional condition keyword first second close =>
    cases condition <;> simp [toTree, inner, Conditional.nodeKind, Tree.nodes_node,
      Expression.nodes_toTree hstate]
  | unconditional u keyword effect close =>
    cases u <;> simp [toTree, inner, Unconditional.nodeKind, Tree.nodes_node,
      Expression.nodes_toTree hstate]
  | _ => simp [toTree, inner, Tree.nodes_node, ArgumentList.nodes_toTree hstate]

theorem Attribute.stateBlocks_toTree (x : Attribute Word) : x.toTree.nodes .stateBlock = [] := by
  cases x with
  | flag f keyword close => cases f <;> simp [toTree, inner, Flag.nodeKind, Tree.nodes_node]
  | _ => simp [toTree, inner, Tree.nodes_node]

theorem Block.stateBlocks_toTree (x : Block Word flavor) :
    x.toTree.nodes .stateBlock = x.state?.toList.map StateBlock.toTree := by
  cases x with
  | main x =>
    simp [toTree, inner, MainBlock.toTree, state?, Tree.nodes_node,
      nodesOf_map Attribute.stateBlocks_toTree]
  | state x =>
    simp [toTree, inner, StateBlock.toTree, state?, Tree.nodes_node,
      nodesOf_map Statement.stateBlocks_toTree]

theorem Quest.stateBlocks_toTree (q : Quest Word flavor) :
    q.toTree.nodes .stateBlock = q.states.map StateBlock.toTree := by
  rw [toTree, Tree.nodes_node, if_neg (by simp), states]
  induction q.blocks with
  | nil => exact Tree.nodesOf_nil
  | cons x xs ih =>
    rw [List.map_cons, Tree.nodesOf_cons, ih, x.stateBlocks_toTree]
    cases x <;> rfl

/-! ### Descriptions -/

/-- The text by which a statement describes its state. -/
def Statement.text? {α : TokenKind → Type} : Statement α flavor → Option (α .string)
  | description _ text _ => some text
  | _ => none

theorem Statement.descriptions_toTree (x : Statement Word flavor) :
    x.toTree.nodes .description = if x.isDescription then [x.inner] else [] := by
  have hdescription : NodeKind.description ∉ operandKinds := by decide
  cases x with
  | conditional condition keyword first second close =>
    cases condition <;> simp [toTree, inner, Conditional.nodeKind, Tree.nodes_node,
      Expression.nodes_toTree hdescription, isDescription]
  | unconditional u keyword effect close =>
    cases u <;> simp [toTree, inner, Unconditional.nodeKind, Tree.nodes_node,
      Expression.nodes_toTree hdescription, isDescription]
  | _ => simp [toTree, inner, Tree.nodes_node, ArgumentList.nodes_toTree hdescription, isDescription]

namespace StateBlock

/-- The text of the first description. -/
def text? (x : StateBlock Word flavor) : Option String :=
  (x.statements.findSome? Statement.text?).map (·.1.text)

theorem descriptions_toTree (x : StateBlock Word flavor) :
    x.toTree.nodes .description = (x.statements.filter (·.isDescription)).map Statement.inner := by
  have hstatements : ∀ ys : List (Statement Word flavor), Tree.nodesOf .description
      (ys.map Statement.toTree) = (ys.filter (·.isDescription)).map Statement.inner := by
    intro ys
    induction ys with
    | nil => exact Tree.nodesOf_nil
    | cons y ys ih =>
      rw [List.map_cons, Tree.nodesOf_cons, y.descriptions_toTree, ih]
      cases hy : y.isDescription <;> simp [hy]
  rw [toTree, Tree.nodes_node, if_neg (by simp)]
  simp [hstatements]

theorem description?_toTree (x : StateBlock Word flavor) :
    Catalog.description? x.toTree = x.text? := by
  change Option.map _ (List.findSome? _ (x.toTree.nodes .description)) = _
  rw [descriptions_toTree, text?, List.findSome?_map]
  induction x.statements with
  | nil => rfl
  | cons y ys ih =>
    cases y with
    | description keyword text close =>
      have hchild := Catalog.childToken?_second .description keyword text (closeTrees close) rfl rfl
        (by simp)
      rw [List.filter_cons_of_pos rfl, List.findSome?_cons, Function.comp_apply, Statement.inner,
        hchild]
      rfl
    | _ => exact ih

/-- The state that the block declares. -/
def symbol (x : StateBlock Word flavor) : StateSymbol := ⟨x.name.1, x.toTree, x.text?⟩

theorem stateOf?_toTree (x : StateBlock Word flavor) :
    Catalog.stateOf? x.toTree = some x.symbol := by
  have hname : Catalog.childToken? x.toTree .identifier = some x.name.1 :=
    Catalog.childToken?_second _ x.keyword x.name _ rfl rfl (by simp)
  rw [Catalog.stateOf?, hname, description?_toTree]
  rfl

end StateBlock

end Ast

namespace Catalog
variable {flavor : Flavor} {p : Parse} {q : Quest Word flavor} (h : p.tree = q.toTree)
include h

/-- **The states in the catalog of a document** are those of the quest that it is. -/
theorem states_eq : (ofParse p).states = q.states.map StateBlock.symbol := by
  show List.filterMap stateOf? (p.tree.nodes .stateBlock) = _
  rw [h, Quest.stateBlocks_toTree, List.filterMap_map, ← List.filterMap_eq_map]
  congr 1
  funext x
  exact x.stateOf?_toTree

theorem states_ofParse :
    (ofParse p).states.map StateSymbol.declaration = q.states.map (·.name.1) := by
  rw [states_eq h, List.map_map]
  rfl

end Catalog

/-! ### The checker of a quest -/

/-- The checker knows the tokens and the states of the quest. -/
structure Checker.IsFor {flavor : Flavor} (c : Checker) (q : Quest Word flavor) : Prop where
  flavor_eq : c.catalog.flavor = flavor
  declarations : c.catalog.states.map StateSymbol.declaration = q.states.map (·.name.1)
  knows : ∀ t ∈ q.tokens, c.Knows t
  nodup : q.tokens.Nodup
  significant : c.parse.stream.significant = q.tokens

theorem TokenStream.nodup_significant (flavor : Flavor) (source : String) :
    (ofSource flavor source).significant.Nodup :=
  ((nodup_tokens flavor source).filter _).filter _

theorem Parse.isFor {flavor : Flavor} {source : String} {q : Quest Word flavor}
    (htree : (parse flavor source).tree = q.toTree)
    (htokens : (parse flavor source).stream.significant = q.tokens) (casings : List String) :
    ((parse flavor source).checker casings).IsFor q where
  flavor_eq := rfl
  declarations := Catalog.states_ofParse htree
  knows t ht := Checker.knows_of_mem rfl (by rw [htokens]; exact ht)
  nodup := htokens ▸ TokenStream.nodup_significant flavor source
  significant := htokens

namespace Ast

theorem Quest.declares_mem_leaves {flavor : Flavor} {q : Quest Word flavor}
    {x : StateBlock Word flavor} (h : x ∈ q.states) :
    (.declares x.name : Leaf Word) ∈ q.leaves := by
  obtain ⟨y, hy, hx⟩ := List.mem_filterMap.mp h
  cases y with
  | main y => cases hx
  | state y =>
    obtain rfl : y = x := Option.some.inj hx
    refine List.mem_flatMap.mpr ⟨_, hy, ?_⟩
    simp [Block.leaves, StateBlock.leaves]

theorem Quest.name_mem_tokens {flavor : Flavor} {q : Quest Word flavor} {x : StateBlock Word flavor}
    (h : x ∈ q.states) : x.name.1 ∈ q.tokens :=
  List.mem_map.mpr ⟨_, declares_mem_leaves h, rfl⟩

theorem Quest.names_sublist {flavor : Flavor} (q : Quest Word flavor) :
    (q.states.map (·.name.1)).Sublist q.tokens := by
  rw [states, tokens, leaves]
  induction q.blocks with
  | nil => exact List.Sublist.slnil
  | cons x xs ih =>
    rw [List.flatMap_cons, List.map_append]
    cases x with
    | main x => exact ih.trans (List.sublist_append_right _ _)
    | state x =>
      have hname : [x.name.1].Sublist (x.leaves.map Leaf.token) :=
        List.singleton_sublist.mpr (by simp [StateBlock.leaves])
      exact hname.append ih

end Ast

namespace Checker.IsFor
variable {flavor : Flavor} {c : Checker} {q : Quest Word flavor}

theorem nodup_names (h : c.IsFor q) : (q.states.map (·.name.1)).Nodup :=
  h.nodup.sublist q.names_sublist

theorem statesNamed (h : c.IsFor q) (name : String) :
    (c.catalog.statesNamed name).map StateSymbol.declaration =
      (q.states.map (·.name.1)).filter fun t => lowercase t.text == lowercase name := by
  rw [← h.declarations, List.filter_map]
  rfl

theorem lookup_state (h : c.IsFor q) (name : String) :
    (c.catalog.lookup? .state name).map Symbol.name =
      ((q.states.map (·.name.1)).find? fun t => lowercase t.text == lowercase name).map (·.text) := by
  rw [← List.head?_filter, ← h.statesNamed name, List.head?_map, Catalog.lookup?]
  cases (c.catalog.statesNamed name).head? <;> rfl

end Checker.IsFor

end QuestScript
