import QuestScript.Proofs.Check.Blocks
import QuestScript.Proofs.Grammar.Solid

/-! # What blocks are made of

Whatever errors there are, attributes and descriptions stand where the grammar has them: all those in
and below a main block are its attributes (`Tree.IsTolerated.nodes_mainBlock`), each of which starts with
its keyword (`Tree.IsTolerated.firstToken_attribute`), the blocks of states stand side by side, so their
names do (`Tree.IsTolerated.names_sublist`), all descriptions in and below the block of a state are its
descriptions (`Tree.IsTolerated.nodes_stateBlock`), and no argument list is below another
(`Tree.IsTolerated.nodesOf_argumentList`). -/

namespace QuestScript

namespace Tree
variable {flavor : Flavor} {k n : NodeKind} {t : Tree} {cs : List Tree}

theorem nodesOf_eq_flatMap (ts : List Tree) : nodesOf k ts = ts.flatMap (nodes k) := by
  induction ts with
  | nil => exact nodesOf_nil
  | cons t ts ih => rw [nodesOf_cons, ih, List.flatMap_cons]

theorem IsTolerated.mem_symbols (h : (Tree.node n cs).IsTolerated flavor) {c : Tree} (hc : c ∈ cs)
    {m : NodeKind} (hm : c.isNode m = true) : .node m ∈ (tolerant flavor n).symbols := by
  cases h with
  | skipped s =>
    rw [List.mem_singleton.mp hc] at hm
    cases hm
  | node hcs hall =>
    rw [← isNode_iff.mp hm]
    exact Rhs.mem_symbols hcs (List.mem_map_of_mem hc)

/-! ### Outer kinds -/

/-- The rules of all other kinds name none of the kinds. -/
def Outer (flavor : Flavor) (kinds : List NodeKind) : Prop :=
  ∀ n ∉ kinds, ∀ m ∈ kinds, .node m ∉ (tolerant flavor n).symbols

section Outer
variable {kinds : List NodeKind} (houter : Outer flavor kinds) (hk : k ∈ kinds)
include houter hk

theorem IsTolerated.nodes_eq_nil (h : t.IsTolerated flavor) (ht : ∀ n ∈ kinds, t.isNode n = false) :
    t.nodes k = [] := by
  induction h with
  | token s => exact nodes_token s
  | skipped s =>
    have herror : NodeKind.error ≠ k := by
      rintro rfl
      exact absurd (ht _ hk) (by simp [isNode, kind])
    rw [nodes_node, if_neg herror, nodesOf_cons, nodes_token, nodesOf_nil, List.append_nil]
  | @node n cs hcs hall ih =>
    have hn : n ∉ kinds := fun hmem => absurd (ht n hmem) (by simp [isNode, kind])
    have hne : n ≠ k := fun heq => hn (heq ▸ hk)
    rw [nodes_node, if_neg hne, nodesOf_eq_flatMap]
    refine List.flatMap_eq_nil_iff.mpr fun c hc => ih c hc fun m hm => ?_
    exact Bool.eq_false_iff.mpr fun hnode =>
      houter n hn m hm ((IsTolerated.node hcs hall).mem_symbols hc hnode)

/-- Where a rule names one of the outer kinds only, all below is below nodes of that kind. -/
theorem IsTolerated.nodesOf_eq {item : NodeKind} (h : (Tree.node n cs).IsTolerated flavor)
    (hrule : ∀ m ∈ kinds, m ≠ item → .node m ∉ (tolerant flavor n).symbols) :
    nodesOf k cs = (cs.filter (·.isNode item)).flatMap (nodes k) := by
  rw [nodesOf_eq_flatMap]
  refine flatMap_eq_of_filter fun c hc hitem => ?_
  refine (h.of_mem hc).1.nodes_eq_nil houter hk fun m hm => Bool.eq_false_iff.mpr fun hnode => ?_
  exact hrule m hm (fun heq => hitem (heq ▸ hnode)) (h.mem_symbols hc hnode)

theorem IsTolerated.nodesOf_eq_nil (h : (Tree.node n cs).IsTolerated flavor)
    (hrule : ∀ m ∈ kinds, .node m ∉ (tolerant flavor n).symbols) : nodesOf k cs = [] := by
  rw [nodesOf_eq_flatMap]
  refine List.flatMap_eq_nil_iff.mpr fun c hc => ?_
  exact (h.of_mem hc).1.nodes_eq_nil houter hk fun m hm => Bool.eq_false_iff.mpr fun hnode =>
    hrule m hm (h.mem_symbols hc hnode)

theorem IsTolerated.nodes_self (h : (Tree.node k cs).IsTolerated flavor)
    (hrule : ∀ m ∈ kinds, .node m ∉ (tolerant flavor k).symbols) :
    (Tree.node k cs).nodes k = [.node k cs] := by
  rw [nodes_node, if_pos rfl, h.nodesOf_eq_nil houter hk hrule]

end Outer

/-! ### Main blocks -/

/-- The kinds of attributes and of what is around them. -/
def attributeKinds : List NodeKind := [.file, .block, .mainBlock, .mainAttribute]

theorem outer_attributeKinds (flavor : Flavor) : Outer flavor attributeKinds := by
  intro n hn
  cases flavor <;> cases n <;> first | decide | exact absurd (by decide) hn

theorem filter_children (t : Tree) (n : NodeKind) :
    t.children.filter (·.isNode n) = t.allChildren.filter (·.isNode n) := by
  rw [children, List.filter_filter]
  refine List.filter_congr fun c _ => ?_
  cases c with
  | token s => simp [isNode, kind]
  | node m ds => simp [isHidden]

/-- **All attributes in and below a main block are directly in it.** -/
theorem IsTolerated.nodes_mainBlock (h : t.IsTolerated flavor) (ht : t.isNode .mainBlock = true) :
    t.nodes .mainAttribute = Checker.attributes t := by
  cases t with
  | token s => cases ht
  | node n cs =>
    obtain rfl : n = .mainBlock := by simpa [isNode, kind] using ht
    have hblock : ∀ m ∈ attributeKinds, m ≠ .mainAttribute →
        .node m ∉ (tolerant flavor .mainBlock).symbols := by
      cases flavor <;> decide
    have hattribute : ∀ m ∈ attributeKinds, .node m ∉ (tolerant flavor .mainAttribute).symbols := by
      cases flavor <;> decide
    have hself : ∀ c ∈ cs.filter (·.isNode .mainAttribute), c.nodes .mainAttribute = [c] := by
      intro c hc
      obtain ⟨hc, hnode⟩ := List.mem_filter.mp hc
      cases c with
      | token s => cases hnode
      | node m ds =>
        obtain rfl : m = .mainAttribute := by simpa [isNode, kind] using hnode
        exact (h.of_mem hc).1.nodes_self (outer_attributeKinds flavor) (by decide) hattribute
    rw [nodes_node, if_neg (by simp), h.nodesOf_eq (outer_attributeKinds flavor) (by decide) hblock,
      List.flatMap_congr hself, List.flatMap_singleton', Checker.attributes, filter_children]
    rfl

/-- **An attribute starts with a keyword.** -/
theorem IsTolerated.firstToken_attribute (h : t.IsTolerated flavor)
    (ht : t.isNode .mainAttribute = true) :
    ∃ s j, t.firstToken? = some s ∧ s.kind = .keyword j := by
  obtain ⟨m, cs, hcs⟩ := h.hasShape.wrapper .mainAttribute rfl ht
  cases t with
  | token s => cases ht
  | node n ds =>
    obtain rfl : n = .mainAttribute := by simpa [isNode, kind] using ht
    obtain rfl : ds = [.node m cs] := hcs
    have hleader : ∀ m, .node m ∈ (tolerant flavor .mainAttribute).symbols → m.leader?.isSome := by
      intro m
      cases flavor <;> cases m <;> decide
    obtain ⟨j, hj⟩ := Option.isSome_iff_exists.mp
      (hleader m (h.mem_symbols List.mem_cons_self (by simp [isNode, kind])))
    obtain ⟨s, es, hes, hs⟩ := (h.of_mem List.mem_cons_self).1.hasShape.leader m j hj
      (by simp [isNode, kind])
    obtain rfl : cs = .token s :: es := hes
    refine ⟨s, j, ?_, hs⟩
    have hsig : s.isSignificant = true := by
      simp [Token.isSignificant, Token.isHidden, hs, TokenKind.isHidden, TokenKind.isTrivia]
    simp [firstToken?, hsig]

/-! ### States -/

/-- The kinds of states and of what is around them. -/
def stateKinds : List NodeKind := [.file, .block, .stateBlock]

theorem outer_stateKinds (flavor : Flavor) : Outer flavor stateKinds := by
  intro n hn
  cases flavor <;> cases n <;> first | decide | exact absurd (by decide) hn

/-- **The names of the states stand in the order of their blocks.** -/
theorem IsTolerated.names_sublist (h : t.IsTolerated flavor) :
    ((t.nodes .stateBlock).filterMap (Catalog.childToken? · .identifier)).Sublist t.leaves := by
  induction h with
  | token t =>
    rw [nodes_token]
    exact List.nil_sublist _
  | skipped t =>
    rw [nodes_node, if_neg (by decide)]
    simp
  | @node n cs hcs hall ih =>
    by_cases hn : n = .stateBlock
    · subst hn
      -- Blocks of states stand side by side, so this block has one name at most.
      have hrule : ∀ m ∈ stateKinds, .node m ∉ (tolerant flavor .stateBlock).symbols := by
        cases flavor <;> decide
      rw [(IsTolerated.node hcs hall).nodes_self (outer_stateKinds flavor) (by decide) hrule]
      cases hname : Catalog.childToken? (.node .stateBlock cs) .identifier with
      | none => simp [hname]
      | some u =>
        have hu := (Catalog.of_childToken? hname).1
        have hleaf : u ∈ (Tree.node .stateBlock cs).leaves :=
          leaves_subset _ (mem_subtrees_of_children (self_mem_subtrees _) hu) (by simp)
        simpa [hname] using hleaf
    · rw [nodes_node, if_neg hn, leaves_node]
      clear hcs hall
      induction cs with
      | nil => simp
      | cons c cs ihs =>
        rw [List.forall_mem_cons] at ih
        rw [nodesOf_cons, List.filterMap_append, leavesOf_cons]
        exact ih.1.append (ihs ih.2)

/-! ### Descriptions -/

/-- The kinds of descriptions and of what is around them. -/
def descriptionKinds : List NodeKind := [.file, .block, .stateBlock, .statement, .description]

theorem outer_descriptionKinds (flavor : Flavor) : Outer flavor descriptionKinds := by
  intro n hn
  cases flavor <;> cases n <;> first | decide | exact absurd (by decide) hn

theorem IsTolerated.nodes_statement (h : t.IsTolerated flavor) (ht : t.isNode .statement = true) :
    t.nodes .description = (t.child? 0).toList.filter (·.isNode .description) := by
  obtain ⟨m, cs, hcs⟩ := h.hasShape.wrapper .statement rfl ht
  cases t with
  | token s => cases ht
  | node n ds =>
    obtain rfl : n = .statement := by simpa [isNode, kind] using ht
    obtain rfl : ds = [.node m cs] := hcs
    have hrule : ∀ m ∈ descriptionKinds, m ≠ .description →
        .node m ∉ (tolerant flavor .statement).symbols := by
      cases flavor <;> decide
    have hdescription : ∀ m ∈ descriptionKinds, .node m ∉ (tolerant flavor .description).symbols := by
      cases flavor <;> decide
    have hchild : (Tree.node .statement [.node m cs]).child? 0 = some (.node m cs) := rfl
    rw [nodes_node, if_neg (by simp), h.nodesOf_eq (outer_descriptionKinds flavor) (by decide) hrule,
      hchild, Option.toList_some]
    by_cases hm : m = .description
    · subst hm
      rw [List.filter_cons_of_pos (by simp [isNode, kind]), List.filter_nil, List.flatMap_singleton]
      exact (h.of_mem List.mem_cons_self).1.nodes_self (outer_descriptionKinds flavor) (by decide)
        hdescription
    · rw [List.filter_cons_of_neg (by simp [isNode, kind, hm]), List.filter_nil, List.flatMap_nil]

/-- **All descriptions in and below the block of a state are statements directly in it.** -/
theorem IsTolerated.nodes_stateBlock (h : t.IsTolerated flavor) (ht : t.isNode .stateBlock = true) :
    t.nodes .description = Checker.descriptions t := by
  cases t with
  | token s => cases ht
  | node n cs =>
    obtain rfl : n = .stateBlock := by simpa [isNode, kind] using ht
    have hrule : ∀ m ∈ descriptionKinds, m ≠ .statement →
        .node m ∉ (tolerant flavor .stateBlock).symbols := by
      cases flavor <;> decide
    have hstatement : ∀ c ∈ cs.filter (·.isNode .statement), c.nodes .description =
        (c.child? 0).toList.filter (·.isNode .description) := by
      intro c hc
      obtain ⟨hc, hnode⟩ := List.mem_filter.mp hc
      exact (h.of_mem hc).1.nodes_statement hnode
    rw [nodes_node, if_neg (by simp), h.nodesOf_eq (outer_descriptionKinds flavor) (by decide) hrule,
      List.flatMap_congr hstatement, Checker.descriptions, filter_children,
      ← List.filter_flatMap, ← List.filterMap_eq_flatMap_toList]
    rfl

/-! ### Argument lists -/

/-- The kinds of argument lists and of what is around them in a flavor. -/
def argumentListKinds : Flavor → List NodeKind
  | .official => [.file, .block, .stateBlock, .statement, .rule, .action, .argumentList]
  | .eoserv => [.file, .block, .stateBlock, .statement, .rule, .goal, .ifThen, .elseIf, .action,
    .otherwise, .expression, .invocationExpression, .argumentList]

theorem outer_argumentListKinds (flavor : Flavor) : Outer flavor (argumentListKinds flavor) := by
  intro n hn
  cases flavor <;> cases n <;> first | decide | exact absurd (by decide) hn

/-- **No argument list is below another.** -/
theorem IsTolerated.nodesOf_argumentList
    (h : (Tree.node .argumentList cs).IsTolerated flavor) : nodesOf .argumentList cs = [] := by
  have hkind : NodeKind.argumentList ∈ argumentListKinds flavor := by cases flavor <;> decide
  have hrule : ∀ m ∈ argumentListKinds flavor, .node m ∉ (tolerant flavor .argumentList).symbols := by
    cases flavor <;> decide
  exact h.nodesOf_eq_nil (outer_argumentListKinds flavor) hkind hrule

end Tree

end QuestScript
