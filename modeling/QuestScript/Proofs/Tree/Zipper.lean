import QuestScript.Proofs.Tree.Nested

/-! # Places know their tree

A place holds all that surrounds its focus, so the whole tree can be put together again
(`Place.whole`). The places in a tree are exactly those whose whole is the tree
(`Place.mem_descendants_iff`); so the parent of a place in a tree is in the tree, and so are its
children and the sibling before it. A place below another has that one above it (`Place.mem_ancestors`), and
it is the nearest of its kind if there is no other below it (`Place.ancestor?_of_mem_node`). -/

namespace QuestScript.Place

variable {root t : Tree} {p q : Place} {path : List Frame}

/-- The tree that a tree and its surroundings make up. -/
def whole : Tree → List Frame → Tree
  | t, [] => t
  | t, f :: path => whole (.node f.kind (f.before.reverse ++ t :: f.after)) path

mutual
theorem whole_of_mem_within : ∀ (path : List Frame) (t : Tree), ∀ q ∈ within path t,
    whole q.focus q.path = whole t path
  | path, .token s, q, hq => by
    rw [within, List.mem_singleton] at hq
    rw [hq]
  | path, .node k cs, q, hq => by
    rw [within, List.mem_cons] at hq
    rcases hq with rfl | hq
    · rfl
    · exact whole_of_mem_withinAll k path [] cs q hq
theorem whole_of_mem_withinAll : ∀ (k : NodeKind) (path : List Frame) (before cs : List Tree),
    ∀ q ∈ withinAll k path before cs,
      whole q.focus q.path = whole (.node k (before.reverse ++ cs)) path
  | k, path, before, [], q, hq => by rw [withinAll] at hq; cases hq
  | k, path, before, c :: cs, q, hq => by
    rw [withinAll, List.mem_append] at hq
    rcases hq with hq | hq
    · exact whole_of_mem_within _ c q hq
    · rw [whole_of_mem_withinAll k path (c :: before) cs q hq, List.reverse_cons, List.append_assoc,
        List.singleton_append]
end

mutual
theorem within_trans : ∀ (path : List Frame) (t : Tree), ∀ p ∈ within path t,
    ∀ q ∈ within p.path p.focus, q ∈ within path t
  | path, .token s, p, hp, q, hq => by
    rw [within, List.mem_singleton] at hp
    rwa [hp] at hq
  | path, .node k cs, p, hp, q, hq => by
    rw [within, List.mem_cons] at hp
    rcases hp with rfl | hp
    · exact hq
    · rw [within]
      exact List.mem_cons_of_mem _ (withinAll_trans k path [] cs p hp q hq)
theorem withinAll_trans : ∀ (k : NodeKind) (path : List Frame) (before cs : List Tree),
    ∀ p ∈ withinAll k path before cs, ∀ q ∈ within p.path p.focus, q ∈ withinAll k path before cs
  | k, path, before, [], p, hp, q, hq => by rw [withinAll] at hp; cases hp
  | k, path, before, c :: cs, p, hp, q, hq => by
    rw [withinAll, List.mem_append] at hp ⊢
    rcases hp with hp | hp
    · exact .inl (within_trans _ c p hp q hq)
    · exact .inr (withinAll_trans k path (c :: before) cs p hp q hq)
end

theorem mem_withinAll (k : NodeKind) (path : List Frame) (t : Tree) (earlier after : List Tree) :
    ∀ before : List Tree, ⟨t, ⟨k, earlier.reverse ++ before, after⟩ :: path⟩ ∈
      withinAll k path before (earlier ++ t :: after) := by
  induction earlier with
  | nil =>
    intro before
    rw [List.nil_append, withinAll]
    exact List.mem_append_left _ (self_mem_within _ t)
  | cons c earlier ih =>
    intro before
    rw [List.cons_append, withinAll, List.reverse_cons, List.append_assoc, List.singleton_append]
    exact List.mem_append_right _ (ih (c :: before))

theorem mem_within_parent (t : Tree) (f : Frame) (path : List Frame) :
    ⟨t, f :: path⟩ ∈ within path (.node f.kind (f.before.reverse ++ t :: f.after)) := by
  have h := mem_withinAll f.kind path t f.before.reverse f.after []
  rw [List.reverse_reverse, List.append_nil] at h
  rw [within]
  exact List.mem_cons_of_mem _ h

/-- **The places in a tree are those whose whole is the tree.** -/
theorem mem_descendants_iff : q ∈ (Place.root root).descendants ↔ whole q.focus q.path = root := by
  constructor
  · exact whole_of_mem_within [] root q
  · obtain ⟨t, path⟩ := q
    induction path generalizing t with
    | nil =>
      rintro rfl
      exact self_mem_within [] t
    | cons f path ih =>
      intro h
      exact within_trans [] root _ (ih _ h) _ (mem_within_parent t f path)

theorem whole_parent? (h : p.parent? = some q) : whole q.focus q.path = whole p.focus p.path := by
  obtain ⟨t, _ | ⟨f, path⟩⟩ := p
  · cases h
  · obtain rfl := Option.some.inj h
    rfl

theorem whole_of_mem_among {k : NodeKind} {cs : List Tree} {before : List Tree}
    (h : q ∈ among k path before cs) :
    whole q.focus q.path = whole (.node k (before.reverse ++ cs)) path := by
  induction cs generalizing before with
  | nil => cases h
  | cons c cs ih =>
    rcases List.mem_cons.mp h with rfl | h
    · rfl
    · rw [ih h, List.reverse_cons, List.append_assoc, List.singleton_append]

theorem whole_child? {i : Nat} (h : p.child? i = some q) :
    whole q.focus q.path = whole p.focus p.path := by
  have hmem := (List.mem_filter.mp (List.mem_of_getElem? h)).1
  obtain ⟨_ | ⟨k, cs⟩, path⟩ := p
  · cases hmem
  · exact whole_of_mem_among hmem

theorem parent?_mem_descendants (hp : p ∈ (Place.root root).descendants) (h : p.parent? = some q) :
    q ∈ (Place.root root).descendants := by
  rw [mem_descendants_iff] at hp ⊢
  rw [whole_parent? h, hp]

theorem child?_mem_descendants {i : Nat} (hp : p ∈ (Place.root root).descendants)
    (h : p.child? i = some q) : q ∈ (Place.root root).descendants := by
  rw [mem_descendants_iff] at hp ⊢
  rw [whole_child? h, hp]

theorem leaves_infix_whole : ∀ (path : List Frame) (t : Tree), t.leaves <:+: (whole t path).leaves
  | [], t => List.infix_rfl
  | f :: path, t => by
    have hnode : t.leaves <:+: (Tree.node f.kind (f.before.reverse ++ t :: f.after)).leaves := by
      rw [Tree.leaves_node, Tree.leavesOf_append, Tree.leavesOf_cons, ← List.append_assoc]
      exact List.infix_append _ _ _
    exact hnode.trans (leaves_infix_whole path _)

theorem leaves_infix (hp : p ∈ (Place.root root).descendants) : p.focus.leaves <:+: root.leaves := by
  rw [← mem_descendants_iff.mp hp]
  exact leaves_infix_whole p.path p.focus

/-! ### Siblings -/

theorem getElem?_filter_among {k : NodeKind} {after : List Tree} (ht : t.isHidden = false)
    (earlier : List Tree) : ∀ before : List Tree,
      ((among k path before (earlier ++ t :: after)).filter (!·.focus.isHidden))[
        (earlier.filter (!·.isHidden)).length]? =
          some ⟨t, ⟨k, earlier.reverse ++ before, after⟩ :: path⟩ := by
  induction earlier with
  | nil =>
    intro before
    rw [List.nil_append, among, List.filter_cons_of_pos (by simp [ht])]
    rfl
  | cons s earlier ih =>
    intro before
    rw [List.cons_append, among, List.reverse_cons, List.append_assoc, List.singleton_append]
    cases hs : s.isHidden with
    | true =>
      rw [List.filter_cons_of_neg (by simp [hs]), List.filter_cons_of_neg (by simp [hs])]
      exact ih (s :: before)
    | false =>
      rw [List.filter_cons_of_pos (by simp [hs]), List.filter_cons_of_pos (by simp [hs]),
        List.length_cons, List.getElem?_cons_succ]
      exact ih (s :: before)

theorem child?_of_index? {k : NodeKind} {before after : List Tree} {i : Nat}
    (h : index? ⟨t, ⟨k, before, after⟩ :: path⟩ = some i) :
    child? ⟨.node k (before.reverse ++ t :: after), path⟩ i = some ⟨t, ⟨k, before, after⟩ :: path⟩ := by
  cases ht : t.isHidden with
  | true => simp [index?, ht] at h
  | false =>
    simp only [index?, ht, Bool.false_eq_true, if_false, Option.some.injEq] at h
    have hplace : ((among k path [] (before.reverse ++ t :: after)).filter (!·.focus.isHidden))[
        (before.reverse.filter (!·.isHidden)).length]? = _ := getElem?_filter_among ht before.reverse []
    rwa [List.filter_reverse, List.length_reverse, List.reverse_reverse, List.append_nil, h] at hplace

theorem previousPlace?_eq {u : Tree} {k : NodeKind} {before after : List Tree} (ht : t.isHidden = false)
    (hu : u.isHidden = false) :
    previousPlace? ⟨t, ⟨k, u :: before, after⟩ :: path⟩ = some ⟨u, ⟨k, before, t :: after⟩ :: path⟩ := by
  have hindex : index? ⟨t, ⟨k, u :: before, after⟩ :: path⟩ =
      some ((before.filter (!·.isHidden)).length + 1) := by
    simp [index?, ht, hu]
  have hprevious : index? ⟨u, ⟨k, before, t :: after⟩ :: path⟩ =
      some (before.filter (!·.isHidden)).length := by
    simp [index?, hu]
  rw [previousPlace?, hindex]
  show child? ⟨.node k ((u :: before).reverse ++ t :: after), path⟩ _ = _
  rw [List.reverse_cons, List.append_assoc, List.singleton_append]
  exact child?_of_index? hprevious

theorem previousPlace?_mem_descendants (hp : p ∈ (Place.root root).descendants)
    (h : p.previousPlace? = some q) : q ∈ (Place.root root).descendants := by
  unfold previousPlace? at h
  split at h
  · obtain ⟨parent, hparent, hchild⟩ := Option.bind_eq_some_iff.mp h
    exact child?_mem_descendants (parent?_mem_descendants hp hparent) hchild
  · cases h

/-! ### What is below and above a place -/

mutual
theorem leaves_of_mem_within : ∀ (path : List Frame) (t : Tree), ∀ q ∈ within path t,
    q.focus.leaves.Sublist t.leaves
  | path, .token s, q, hq => by
    rw [within, List.mem_singleton] at hq
    rw [hq]
  | path, .node k cs, q, hq => by
    rw [within, List.mem_cons] at hq
    rcases hq with rfl | hq
    · exact List.Sublist.refl _
    · obtain ⟨t, ht, hsub⟩ := leaves_of_mem_withinAll k path [] cs q hq
      rw [Tree.leaves_node]
      exact hsub.trans (Tree.leavesOf_sublist cs (Tree.mem_subtreesOf_of_mem ht))
theorem leaves_of_mem_withinAll : ∀ (k : NodeKind) (path : List Frame) (before cs : List Tree),
    ∀ q ∈ withinAll k path before cs, ∃ t ∈ cs, q.focus.leaves.Sublist t.leaves
  | k, path, before, [], q, hq => by rw [withinAll] at hq; cases hq
  | k, path, before, c :: cs, q, hq => by
    rw [withinAll, List.mem_append] at hq
    rcases hq with hq | hq
    · exact ⟨c, List.mem_cons_self, leaves_of_mem_within _ c q hq⟩
    · obtain ⟨t, ht, hsub⟩ := leaves_of_mem_withinAll k path (c :: before) cs q hq
      exact ⟨t, List.mem_cons_of_mem c ht, hsub⟩
end

mutual
theorem ancestors_of_mem_within : ∀ (path : List Frame) (t : Tree), ∀ q ∈ within path t,
    ∀ a ∈ nodesAround t path, a ∈ q.ancestors
  | path, .token s, q, hq, a, ha => by
    rw [within, List.mem_singleton] at hq
    rw [hq]
    exact ha
  | path, .node k cs, q, hq, a, ha => by
    rw [within, List.mem_cons] at hq
    rcases hq with rfl | hq
    · exact ha
    · exact ancestors_of_mem_withinAll k path [] cs q hq a (List.mem_cons_of_mem _ ha)
theorem ancestors_of_mem_withinAll : ∀ (k : NodeKind) (path : List Frame) (before cs : List Tree),
    ∀ q ∈ withinAll k path before cs,
      ∀ a ∈ (⟨.node k (before.reverse ++ cs), path⟩ : Place) ::
        nodesAround (.node k (before.reverse ++ cs)) path, a ∈ q.ancestors
  | k, path, before, [], q, hq, a, ha => by rw [withinAll] at hq; cases hq
  | k, path, before, c :: cs, q, hq, a, ha => by
    rw [withinAll, List.mem_append] at hq
    rcases hq with hq | hq
    · exact ancestors_of_mem_within (⟨k, before, cs⟩ :: path) c q hq a ha
    · refine ancestors_of_mem_withinAll k path (c :: before) cs q hq a ?_
      rwa [List.reverse_cons, List.append_assoc, List.singleton_append]
end

theorem mem_ancestors {k : NodeKind} {cs : List Tree} (h : q ∈ withinAll k path [] cs) :
    (⟨.node k cs, path⟩ : Place) ∈ q.ancestors :=
  ancestors_of_mem_withinAll k path [] cs q h _ List.mem_cons_self

mutual
/-- Where a tree has no node of a kind, the nearest around the tree is the nearest above all in it. -/
theorem ancestor?_of_mem_within {k : NodeKind} : ∀ (path : List Frame) (t : Tree),
    (∀ u ∈ t.subtrees, u.isNode k = false) → ∀ q ∈ within path t,
      q.ancestor? k = (nodesAround t path).find? (·.focus.isNode k)
  | path, .token s, _, q, hq => by
    rw [within, List.mem_singleton] at hq
    rw [hq]
    rfl
  | path, .node j cs, hnone, q, hq => by
    rw [within, List.mem_cons] at hq
    rcases hq with rfl | hq
    · rfl
    · have hcs : ∀ u ∈ Tree.subtreesOf cs, u.isNode k = false := fun u hu =>
        hnone u (Tree.mem_subtrees_node.mpr (.inr hu))
      rw [ancestor?_of_mem_withinAll j path [] cs hcs q hq]
      exact List.find?_cons_of_neg (by simp [hnone _ (Tree.self_mem_subtrees _)])
theorem ancestor?_of_mem_withinAll {k : NodeKind} : ∀ (j : NodeKind) (path : List Frame)
    (before cs : List Tree), (∀ u ∈ Tree.subtreesOf cs, u.isNode k = false) →
      ∀ q ∈ withinAll j path before cs, q.ancestor? k =
        ((⟨.node j (before.reverse ++ cs), path⟩ : Place) ::
          nodesAround (.node j (before.reverse ++ cs)) path).find? (·.focus.isNode k)
  | j, path, before, [], _, q, hq => by rw [withinAll] at hq; cases hq
  | j, path, before, c :: cs, hnone, q, hq => by
    simp only [Tree.subtreesOf, List.forall_mem_append] at hnone
    rw [withinAll, List.mem_append] at hq
    rcases hq with hq | hq
    · exact ancestor?_of_mem_within (⟨j, before, cs⟩ :: path) c hnone.1 q hq
    · rw [ancestor?_of_mem_withinAll j path (c :: before) cs hnone.2 q hq, List.reverse_cons,
        List.append_assoc, List.singleton_append]
end

/-- **A node is the nearest of its kind** above all that stands below it, if there is none there. -/
theorem ancestor?_of_mem_node {k : NodeKind} {cs : List Tree}
    (hnone : ∀ u ∈ Tree.subtreesOf cs, u.isNode k = false) (h : q ∈ withinAll k path [] cs) :
    q.ancestor? k = some ⟨.node k cs, path⟩ := by
  rw [ancestor?_of_mem_withinAll k path [] cs hnone q h]
  exact List.find?_cons_of_pos (by simp [Tree.isNode, Tree.kind])

end QuestScript.Place
