import Mathlib.Data.List.Basic
import QuestScript.Tree.Place

/-! # Trees within a tree

What is below a tree that is below another is below that one, too (`subtrees_trans`). The places of a
tree are *in* it (`Place.IsIn`): the focus, the nodes around it and the siblings of each are all in or
below the tree. -/

namespace QuestScript

/-! ### Subtrees -/

namespace Tree
variable {t u v c : Tree} {ts : List Tree} {k : NodeKind}

theorem self_mem_subtrees (t : Tree) : t ∈ t.subtrees := by
  cases t <;> simp [subtrees]

theorem mem_subtreesOf : u ∈ subtreesOf ts ↔ ∃ t ∈ ts, u ∈ t.subtrees := by
  induction ts with
  | nil => simp [subtreesOf]
  | cons t ts ih => rw [subtreesOf, List.mem_append, ih, List.exists_mem_cons_iff]

theorem mem_leavesOf {l : Token} : l ∈ leavesOf ts ↔ ∃ t ∈ ts, l ∈ t.leaves := by
  induction ts with
  | nil => simp
  | cons t ts ih => rw [leavesOf_cons, List.mem_append, ih, List.exists_mem_cons_iff]

@[simp] theorem subtreesOf_append (ss ts : List Tree) :
    subtreesOf (ss ++ ts) = subtreesOf ss ++ subtreesOf ts := by
  induction ss with
  | nil => simp [subtreesOf]
  | cons s ss ih => rw [List.cons_append, subtreesOf, ih, subtreesOf, List.append_assoc]

theorem mem_subtrees_node : u ∈ (node k ts).subtrees ↔ u = node k ts ∨ u ∈ subtreesOf ts := by
  rw [subtrees, List.mem_cons]

theorem mem_subtrees_iff : u ∈ t.subtrees ↔ u = t ∨ u ∈ subtreesOf t.allChildren := by
  cases t with
  | token s => simp [subtrees, allChildren, subtreesOf]
  | node k cs => exact mem_subtrees_node

mutual
theorem subtrees_trans : ∀ (t : Tree) {u v : Tree}, u ∈ t.subtrees → v ∈ u.subtrees → v ∈ t.subtrees
  | token s, u, v, hu, hv => by
    rw [subtrees, List.mem_singleton] at hu
    rwa [hu] at hv
  | node k cs, u, v, hu, hv => by
    rcases mem_subtrees_node.mp hu with rfl | hu
    · exact hv
    · exact mem_subtrees_node.mpr (.inr (subtreesOf_trans cs hu hv))
theorem subtreesOf_trans : ∀ (ts : List Tree) {u v : Tree}, u ∈ subtreesOf ts → v ∈ u.subtrees →
    v ∈ subtreesOf ts
  | [], u, v, hu, _ => by simp [subtreesOf] at hu
  | t :: ts, u, v, hu, hv => by
    rw [subtreesOf, List.mem_append] at hu ⊢
    exact hu.imp (subtrees_trans t · hv) (subtreesOf_trans ts · hv)
end

theorem mem_subtreesOf_of_mem (h : c ∈ ts) : c ∈ subtreesOf ts :=
  mem_subtreesOf.mpr ⟨c, h, c.self_mem_subtrees⟩

theorem mem_subtrees_of_allChildren (hu : u ∈ t.subtrees) (hc : c ∈ u.allChildren) :
    c ∈ t.subtrees := by
  refine subtrees_trans t hu ?_
  cases u with
  | token s => cases hc
  | node k cs => exact mem_subtrees_node.mpr (.inr (mem_subtreesOf_of_mem hc))

theorem mem_subtrees_of_children (hu : u ∈ t.subtrees) (hc : c ∈ u.children) : c ∈ t.subtrees :=
  mem_subtrees_of_allChildren hu (List.mem_filter.mp hc).1

theorem mem_subtrees_of_child? {i : Nat} (hu : u ∈ t.subtrees) (hc : u.child? i = some c) :
    c ∈ t.subtrees :=
  mem_subtrees_of_children hu (List.mem_of_getElem? hc)

mutual
theorem leaves_sublist : ∀ (t : Tree) {u : Tree}, u ∈ t.subtrees → u.leaves.Sublist t.leaves
  | token s, u, hu => by
    rw [subtrees, List.mem_singleton] at hu
    rw [hu]
  | node k cs, u, hu => by
    rcases mem_subtrees_node.mp hu with rfl | hu
    · exact List.Sublist.refl _
    · rw [leaves_node]
      exact leavesOf_sublist cs hu
theorem leavesOf_sublist : ∀ (ts : List Tree) {u : Tree}, u ∈ subtreesOf ts →
    u.leaves.Sublist (leavesOf ts)
  | [], u, hu => by simp [subtreesOf] at hu
  | t :: ts, u, hu => by
    rw [subtreesOf, List.mem_append] at hu
    rw [leavesOf_cons]
    rcases hu with hu | hu
    · exact (leaves_sublist t hu).trans (List.sublist_append_left _ _)
    · exact (leavesOf_sublist ts hu).trans (List.sublist_append_right _ _)
end

theorem leavesOf_mono {ss ts : List Tree} (h : ss.Sublist ts) :
    (leavesOf ss).Sublist (leavesOf ts) := by
  induction h with
  | slnil => exact List.Sublist.refl _
  | cons t _ ih =>
    rw [leavesOf_cons]
    exact ih.trans (List.sublist_append_right _ _)
  | cons_cons t _ ih =>
    rw [leavesOf_cons, leavesOf_cons]
    exact (List.Sublist.refl _).append ih

theorem leavesOf_eq_flatMap (ts : List Tree) : leavesOf ts = ts.flatMap leaves := by
  induction ts with
  | nil => exact leavesOf_nil
  | cons t ts ih => rw [leavesOf_cons, List.flatMap_cons, ih]

/-- Trees that are taken out of others, each from one, keep the order of the tokens. -/
theorem leavesOf_filterMap_sublist {f : Tree → Option Tree}
    (h : ∀ b c, f b = some c → c.leaves.Sublist b.leaves) (bs : List Tree) :
    (leavesOf (bs.filterMap f)).Sublist (leavesOf bs) := by
  induction bs with
  | nil => exact .slnil
  | cons b bs ih =>
    rw [leavesOf_cons]
    cases hb : f b with
    | none =>
      rw [List.filterMap_cons_none hb]
      exact ih.trans (List.sublist_append_right ..)
    | some c =>
      rw [List.filterMap_cons_some hb, leavesOf_cons]
      exact (h b c hb).append ih

theorem leavesOf_children_sublist (t : Tree) : (leavesOf t.children).Sublist t.leaves := by
  cases t with
  | token s => exact List.nil_sublist _
  | node k cs =>
    rw [leaves_node]
    exact leavesOf_mono List.filter_sublist

theorem leaves_subset (t : Tree) {u : Tree} (hu : u ∈ t.subtrees) : u.leaves ⊆ t.leaves :=
  (leaves_sublist t hu).subset

end Tree

/-! ### Places -/

namespace Place

/-- What is at the place and around it is in or below the tree. -/
structure IsIn (root : Tree) (p : Place) : Prop where
  focus : p.focus ∈ root.subtrees
  around : ∀ a ∈ p.ancestors, a.focus ∈ root.subtrees

variable {root t u : Tree} {p q : Place} {path : List Frame} {k : NodeKind}

theorem IsIn.child {c : Tree} {before after : List Tree}
    (h : IsIn root ⟨.node k (before.reverse ++ c :: after), path⟩) :
    IsIn root ⟨c, ⟨k, before, after⟩ :: path⟩ := by
  refine ⟨Tree.mem_subtrees_of_allChildren h.focus ?_, fun a ha => ?_⟩
  · exact List.mem_append_right _ List.mem_cons_self
  · rw [ancestors, nodesAround, List.mem_cons] at ha
    rcases ha with rfl | ha
    · exact h.focus
    · exact h.around a ha

mutual
theorem isIn_within : ∀ (path : List Frame) (t : Tree), IsIn root ⟨t, path⟩ →
    ∀ q ∈ within path t, q.IsIn root
  | path, .token s, h, q, hq => by
    rw [within, List.mem_singleton] at hq
    rw [hq]
    exact h
  | path, .node k cs, h, q, hq => by
    rw [within, List.mem_cons] at hq
    rcases hq with rfl | hq
    · exact h
    · exact isIn_withinAll k path [] cs h q hq
theorem isIn_withinAll : ∀ (k : NodeKind) (path : List Frame) (before cs : List Tree),
    IsIn root ⟨.node k (before.reverse ++ cs), path⟩ → ∀ q ∈ withinAll k path before cs, q.IsIn root
  | k, path, before, [], h, q, hq => by rw [withinAll] at hq; cases hq
  | k, path, before, c :: cs, h, q, hq => by
    rw [withinAll, List.mem_append] at hq
    rcases hq with hq | hq
    · exact isIn_within _ c h.child q hq
    · refine isIn_withinAll k path (c :: before) cs ?_ q hq
      rwa [List.reverse_cons, List.append_assoc, List.singleton_append]
end

/-- **The places of a tree are in it.** -/
theorem isIn_of_mem_descendants (h : q ∈ (Place.root t).descendants) : q.IsIn t := by
  refine isIn_within [] t ⟨t.self_mem_subtrees, ?_⟩ q h
  simp [ancestors, nodesAround]

theorem self_mem_within (path : List Frame) (t : Tree) : ⟨t, path⟩ ∈ within path t := by
  cases t <;> simp [within]

theorem exists_mem_withinAll (path : List Frame) (before : List Tree) {cs : List Tree} {c : Tree}
    (hc : c ∈ cs) : ∃ q ∈ withinAll k path before cs, q.focus = c ∧ q.parentKind? = some k := by
  induction cs generalizing before with
  | nil => cases hc
  | cons d cs ih =>
    rw [withinAll]
    rcases List.mem_cons.mp hc with rfl | hc
    · exact ⟨_, List.mem_append_left _ (self_mem_within _ c), rfl, rfl⟩
    · obtain ⟨q, hq, h⟩ := ih (d :: before) hc
      exact ⟨q, List.mem_append_right _ hq, h⟩

mutual
theorem exists_child_within : ∀ (path : List Frame) (t : Tree) {cs : List Tree} {c : Tree},
    .node k cs ∈ t.subtrees → c ∈ cs → ∃ q ∈ within path t, q.focus = c ∧ q.parentKind? = some k
  | path, .token s, cs, c, hmem, _ => by
    rw [Tree.subtrees, List.mem_singleton] at hmem
    cases hmem
  | path, .node j ds, cs, c, hmem, hc => by
    rw [within]
    rcases Tree.mem_subtrees_node.mp hmem with heq | hmem
    · obtain ⟨rfl, rfl⟩ := Tree.node.inj heq
      obtain ⟨q, hq, h⟩ := exists_mem_withinAll path [] hc
      exact ⟨q, List.mem_cons_of_mem _ hq, h⟩
    · obtain ⟨q, hq, h⟩ := exists_child_withinAll j path [] ds hmem hc
      exact ⟨q, List.mem_cons_of_mem _ hq, h⟩
termination_by structural _ t => t
theorem exists_child_withinAll : ∀ (j : NodeKind) (path : List Frame) (before ds : List Tree)
    {cs : List Tree} {c : Tree}, .node k cs ∈ Tree.subtreesOf ds → c ∈ cs →
      ∃ q ∈ withinAll j path before ds, q.focus = c ∧ q.parentKind? = some k
  | j, path, before, [], cs, c, hmem, _ => by simp [Tree.subtreesOf] at hmem
  | j, path, before, d :: ds, cs, c, hmem, hc => by
    rw [Tree.subtreesOf, List.mem_append] at hmem
    rw [withinAll]
    rcases hmem with hmem | hmem
    · obtain ⟨q, hq, h⟩ := exists_child_within (⟨j, before, ds⟩ :: path) d hmem hc
      exact ⟨q, List.mem_append_left _ hq, h⟩
    · obtain ⟨q, hq, h⟩ := exists_child_withinAll j path (d :: before) ds hmem hc
      exact ⟨q, List.mem_append_right _ hq, h⟩
termination_by structural _ _ _ ds => ds
end

/-- **Every child of a node in a tree has a place in it.** -/
theorem exists_child {t c : Tree} (ht : t ∈ root.subtrees) (hk : t.isNode k = true)
    (hc : c ∈ t.allChildren) :
    ∃ q ∈ (Place.root root).descendants, q.focus = c ∧ q.parentKind? = some k := by
  cases t with
  | token s => cases hc
  | node j cs =>
    obtain rfl : j = k := by simpa [Tree.isNode, Tree.kind] using hk
    exact exists_child_within [] root ht hc

namespace IsIn
variable (h : p.IsIn root)
include h

theorem ancestor? (hq : p.ancestor? k = some q) : q.focus ∈ root.subtrees :=
  h.around q (List.mem_of_find?_eq_some hq)

theorem sibling {f : Frame} (hf : p.path.head? = some f) (hu : u ∈ f.before ∨ u ∈ f.after) :
    u ∈ root.subtrees := by
  obtain ⟨t, _ | ⟨g, path⟩⟩ := p
  · cases hf
  · obtain rfl : g = f := Option.some.inj hf
    have hparent := h.around _ List.mem_cons_self
    refine Tree.mem_subtrees_of_allChildren hparent (List.mem_append.mpr ?_)
    exact hu.imp List.mem_reverse.mpr (List.mem_cons_of_mem _)

theorem next? (hu : p.next? = some u) : u ∈ root.subtrees := by
  obtain ⟨f, hf, hfind⟩ := Option.bind_eq_some_iff.mp hu
  exact h.sibling hf (.inr (List.mem_of_find?_eq_some hfind))

theorem previous? (hu : p.previous? = some u) : u ∈ root.subtrees := by
  obtain ⟨f, hf, hfind⟩ := Option.bind_eq_some_iff.mp hu
  exact h.sibling hf (.inl (List.mem_of_find?_eq_some hfind))

end IsIn

theorem IsIn.leavesOf_next?_sublist (h : p.IsIn root) (hu : p.next? = some u) :
    (Tree.leavesOf [p.focus, u]).Sublist root.leaves := by
  obtain ⟨t, _ | ⟨f, path⟩⟩ := p
  · cases hu
  · have hparent := h.around _ List.mem_cons_self
    have hafter : [u].Sublist f.after := List.singleton_sublist.mpr (List.mem_of_find?_eq_some hu)
    have hchildren : [t, u].Sublist (f.before.reverse ++ t :: f.after) :=
      (hafter.cons_cons t).trans (List.sublist_append_right _ _)
    refine (Tree.leavesOf_mono hchildren).trans ?_
    rw [← Tree.leaves_node f.kind]
    exact Tree.leaves_sublist root hparent

/-! ### Positions among siblings -/

theorem exists_frame (h : p.parentKind? = some k) :
    ∃ before after path, p = ⟨p.focus, ⟨k, before, after⟩ :: path⟩ := by
  obtain ⟨t, _ | ⟨⟨j, before, after⟩, path⟩⟩ := p
  · cases h
  · obtain rfl : j = k := Option.some.inj h
    exact ⟨before, after, path, rfl⟩

theorem children_around (before after : List Tree) (ht : t.isHidden = false) :
    (Tree.node k (before.reverse ++ t :: after)).children =
      (before.filter (!·.isHidden)).reverse ++ t :: after.filter (!·.isHidden) := by
  rw [Tree.children, Tree.allChildren, List.filter_append, List.filter_reverse,
    List.filter_cons_of_pos (by simp [ht])]

theorem child?_index {before after : List Tree} {i : Nat}
    (h : index? ⟨t, ⟨k, before, after⟩ :: path⟩ = some i) :
    (Tree.node k (before.reverse ++ t :: after)).child? i = some t := by
  cases ht : t.isHidden with
  | true => simp [index?, ht] at h
  | false =>
    simp only [index?, ht, Bool.false_eq_true, if_false, Option.some.injEq] at h
    rw [Tree.child?, children_around before after ht, ← h, List.getElem?_append_right (by simp)]
    simp

theorem index?_ne_zero {before after : List Tree}
    (hu : previous? ⟨t, ⟨k, before, after⟩ :: path⟩ = some u) :
    index? ⟨t, ⟨k, before, after⟩ :: path⟩ ≠ some 0 := by
  have hfound : before.find? (!·.isHidden) = some u := hu
  rw [← List.head?_filter] at hfound
  have hpos := List.length_pos_of_mem (List.mem_of_mem_head? hfound)
  cases ht : t.isHidden with
  | true => simp [index?, ht]
  | false =>
    simp only [index?, ht, Bool.false_eq_true, if_false, ne_eq, Option.some.injEq]
    omega

theorem child?_previous {before after : List Tree} {i : Nat}
    (h : index? ⟨t, ⟨k, before, after⟩ :: path⟩ = some (i + 1))
    (hu : previous? ⟨t, ⟨k, before, after⟩ :: path⟩ = some u) :
    (Tree.node k (before.reverse ++ t :: after)).child? i = some u := by
  cases ht : t.isHidden with
  | true => simp [index?, ht] at h
  | false =>
    simp only [index?, ht, Bool.false_eq_true, if_false, Option.some.injEq] at h
    have hfound : before.find? (!·.isHidden) = some u := hu
    rw [← List.head?_filter] at hfound
    obtain ⟨earlier, hearlier⟩ := List.head?_eq_some_iff.mp hfound
    have hlength : earlier.length = i := by
      rw [hearlier, List.length_cons] at h
      omega
    rw [Tree.child?, children_around before after ht, hearlier, List.reverse_cons, ← hlength,
      List.append_assoc, List.getElem?_append_right (by simp)]
    simp

/-- The last place comes after all its siblings, and the one before it is the last of them. -/
theorem children_isLast {before after : List Tree}
    (h : isLast ⟨t, ⟨k, before, after⟩ :: path⟩ = true) :
    ∃ siblings, (Tree.node k (before.reverse ++ t :: after)).children = siblings ++ [t] ∧
      previous? ⟨t, ⟨k, before, after⟩ :: path⟩ = siblings.getLast? := by
  simp only [isLast, Bool.and_eq_true, Bool.not_eq_true', List.all_eq_true] at h
  refine ⟨(before.filter (!·.isHidden)).reverse, ?_, ?_⟩
  · have hafter : after.filter (!·.isHidden) = [] :=
      List.filter_eq_nil_iff.mpr fun u hu => by simp [h.2 u hu]
    rw [children_around before after h.1, hafter]
  · rw [List.getLast?_reverse, List.head?_filter]
    rfl

end Place

end QuestScript
