import QuestScript.Proofs.Tree.Hidden
import QuestScript.Proofs.Tree.Hom

/-! # Places without hidden tokens

Hidden tokens are no significant children, so they do not matter for where something stands: the places of
a tree, but those of hidden tokens, are the places of the tree without hidden tokens, in the same order
(`Place.within_withoutHidden`), and what is at a place refers to the same with and without them
(`classify_withoutHidden`). -/

namespace QuestScript

/-- The frame without hidden tokens. -/
def Frame.withoutHidden (s : Frame) : Frame :=
  ⟨s.kind, Tree.withoutHiddenAll s.before, Tree.withoutHiddenAll s.after⟩

/-- The place without hidden tokens below and around it. -/
def Place.withoutHidden (p : Place) : Place :=
  ⟨p.focus.withoutHidden, p.path.map Frame.withoutHidden⟩

/-! ### Trees -/

namespace Tree
variable {t : Tree}

@[simp] theorem isHidden_withoutHidden (t : Tree) : t.withoutHidden.isHidden = t.isHidden := by
  cases t <;> simp [withoutHidden, isHidden]

theorem isHidden_comp_withoutHidden :
    (fun t : Tree => !t.isHidden) ∘ withoutHidden = fun t => !t.isHidden := by
  funext t
  rw [Function.comp_apply, isHidden_withoutHidden]

theorem filter_withoutHiddenAll (cs : List Tree) :
    (withoutHiddenAll cs).filter (!·.isHidden) = withoutHiddenAll cs := by
  rw [withoutHiddenAll_eq, List.filter_map, isHidden_comp_withoutHidden, List.filter_filter]
  simp only [Bool.and_self]

theorem find?_withoutHiddenAll (cs : List Tree) :
    (withoutHiddenAll cs).find? (!·.isHidden) = (cs.find? (!·.isHidden)).map withoutHidden := by
  rw [← List.head?_filter, filter_withoutHiddenAll, withoutHiddenAll_eq, List.head?_map,
    List.head?_filter]

theorem all_withoutHiddenAll (cs : List Tree) :
    (withoutHiddenAll cs).all (·.isHidden) = cs.all (·.isHidden) := by
  induction cs with
  | nil => rfl
  | cons c cs ih =>
    rw [withoutHiddenAll, List.all_cons]
    cases hc : c.isHidden
    · rw [if_neg (by simp), List.all_cons, isHidden_withoutHidden, hc]
      rfl
    · rw [if_pos rfl, ih]
      rfl

theorem withoutHiddenAll_around (before after : List Tree) (ht : t.isHidden = false) :
    withoutHiddenAll (before.reverse ++ t :: after) =
      (withoutHiddenAll before).reverse ++ t.withoutHidden :: withoutHiddenAll after := by
  rw [withoutHiddenAll_eq, List.filter_append, List.filter_cons_of_pos (by simp [ht]), List.map_append,
    List.map_cons, List.filter_reverse, List.map_reverse, ← withoutHiddenAll_eq, ← withoutHiddenAll_eq]

theorem filter_leaves_of_isHidden (ht : t.isHidden = true) :
    t.leaves.filter (·.isSignificant) = [] := by
  cases t with
  | token s =>
    have hs : s.isHidden = true := ht
    simp [Token.isSignificant, hs]
  | node k cs => cases ht

mutual
theorem significantTokens_withoutHidden : ∀ t : Tree,
    t.withoutHidden.leaves.filter (·.isSignificant) = t.leaves.filter (·.isSignificant)
  | token s => by rw [withoutHidden]
  | node k cs => by
    rw [withoutHidden, leaves_node, leaves_node, significantTokens_withoutHiddenAll cs]
theorem significantTokens_withoutHiddenAll : ∀ cs : List Tree,
    (leavesOf (withoutHiddenAll cs)).filter (·.isSignificant) =
      (leavesOf cs).filter (·.isSignificant)
  | [] => rfl
  | c :: cs => by
    have hcs := significantTokens_withoutHiddenAll cs
    rw [withoutHiddenAll, leavesOf_cons, List.filter_append]
    split
    · rename_i hc
      rw [hcs, filter_leaves_of_isHidden hc, List.nil_append]
    · rw [leavesOf_cons, List.filter_append, significantTokens_withoutHidden c, hcs]
end

theorem children_withoutHidden (t : Tree) :
    t.withoutHidden.children = t.children.map withoutHidden := by
  have hall : t.withoutHidden.allChildren = withoutHiddenAll t.allChildren := by
    cases t <;> simp [withoutHidden, allChildren, withoutHiddenAll]
  rw [children, hall, filter_withoutHiddenAll, withoutHiddenAll_eq, children]

/-- **To leave out hidden tokens is a homomorphism**: the grammar does not see them. -/
theorem isHom_withoutHidden : IsHom id withoutHidden where
  kind := kind_withoutHidden
  token? t := by cases t <;> simp [withoutHidden, token?]
  children := children_withoutHidden
  significantTokens t := by
    rw [significantTokens, significantTokens_withoutHidden, List.map_id, significantTokens]

end Tree

/-! ### Places -/

namespace Place
variable {p : Place}

theorem filter_within_of_isHidden {t : Tree} (ht : t.isHidden = true) (path : List Frame) :
    (within path t).filter (!·.focus.isHidden) = [] := by
  cases t with
  | token s => rw [within, List.filter_cons_of_neg (by simp [ht]), List.filter_nil]
  | node k cs => cases ht

mutual
/-- **The places of a tree without hidden tokens** are its other places. -/
theorem within_withoutHidden : ∀ (path : List Frame) (t : Tree), t.isHidden = false →
    within (path.map Frame.withoutHidden) t.withoutHidden =
      ((within path t).filter (!·.focus.isHidden)).map Place.withoutHidden
  | path, .token s, ht => by
    rw [within, List.filter_cons_of_pos (by simp [ht]), Tree.withoutHidden, within]
    rfl
  | path, .node k cs, _ => by
    rw [Tree.withoutHidden, within, within, List.filter_cons_of_pos (by simp [Tree.isHidden]),
      List.map_cons, ← withinAll_withoutHidden k path [] cs, Place.withoutHidden, Tree.withoutHidden]
    rfl
theorem withinAll_withoutHidden : ∀ (k : NodeKind) (path : List Frame) (before cs : List Tree),
    withinAll k (path.map Frame.withoutHidden) (Tree.withoutHiddenAll before)
        (Tree.withoutHiddenAll cs) =
      ((withinAll k path before cs).filter (!·.focus.isHidden)).map Place.withoutHidden
  | k, path, before, [] => rfl
  | k, path, before, c :: cs => by
    have hcs := withinAll_withoutHidden k path (c :: before) cs
    rw [Tree.withoutHiddenAll] at hcs
    rw [Tree.withoutHiddenAll, withinAll, List.filter_append, List.map_append, ← hcs]
    cases hc : c.isHidden
    · rw [if_neg (by simp), if_neg (by simp), withinAll, ← within_withoutHidden _ c hc]
      rfl
    · rw [if_pos rfl, if_pos rfl, filter_within_of_isHidden hc, List.map_nil, List.nil_append]
end

theorem parentKind?_withoutHidden (p : Place) : p.withoutHidden.parentKind? = p.parentKind? := by
  obtain ⟨t, _ | ⟨s, path⟩⟩ := p <;> rfl

theorem isError_withoutHidden (p : Place) : p.withoutHidden.isError = p.isError := by
  obtain ⟨t | ⟨k, cs⟩, path⟩ := p
  · rw [withoutHidden, Tree.withoutHidden]
    exact congrArg (· == some NodeKind.error) (parentKind?_withoutHidden ⟨.token t, path⟩)
  · rw [withoutHidden, Tree.withoutHidden]
    rfl

theorem parent?_withoutHidden (hp : p.focus.isHidden = false) :
    p.withoutHidden.parent? = p.parent?.map Place.withoutHidden := by
  obtain ⟨t, _ | ⟨s, path⟩⟩ := p
  · rfl
  · have haround := Tree.withoutHiddenAll_around s.before s.after hp
    simp only [parent?, withoutHidden, List.map_cons, Option.map_some, Tree.withoutHidden, haround]
    rfl

theorem index?_withoutHidden (p : Place) : p.withoutHidden.index? = p.index? := by
  obtain ⟨t, _ | ⟨s, path⟩⟩ := p
  · rfl
  · simp only [withoutHidden, index?, List.map_cons, Frame.withoutHidden, Tree.isHidden_withoutHidden,
      Tree.filter_withoutHiddenAll]
    rw [Tree.withoutHiddenAll_eq, List.length_map]

theorem isLast_withoutHidden (p : Place) : p.withoutHidden.isLast = p.isLast := by
  obtain ⟨t, _ | ⟨s, path⟩⟩ := p
  · rfl
  · simp only [withoutHidden, isLast, List.map_cons, Frame.withoutHidden, Tree.isHidden_withoutHidden,
      Tree.all_withoutHiddenAll]

theorem previous?_withoutHidden (p : Place) :
    p.withoutHidden.previous? = p.previous?.map Tree.withoutHidden := by
  obtain ⟨t, _ | ⟨s, path⟩⟩ := p
  · rfl
  · exact Tree.find?_withoutHiddenAll s.before

theorem next?_withoutHidden (p : Place) : p.withoutHidden.next? = p.next?.map Tree.withoutHidden := by
  obtain ⟨t, _ | ⟨s, path⟩⟩ := p
  · rfl
  · exact Tree.find?_withoutHiddenAll s.after

theorem isHom_withoutHidden : IsHom id Tree.withoutHidden Place.withoutHidden where
  toIsHom := Tree.isHom_withoutHidden
  focus _ := rfl
  parentKind? := parentKind?_withoutHidden
  index? := index?_withoutHidden
  isLast := isLast_withoutHidden
  next? := next?_withoutHidden
  previous? := previous?_withoutHidden
  parent? _ := parent?_withoutHidden

end Place

/-! ### References -/

/-- **What a name refers to does not depend on hidden tokens.** -/
theorem classify_withoutHidden (flavor : Flavor) (p : Place) :
    classify flavor p.withoutHidden = classify flavor p :=
  Place.isHom_withoutHidden.classify Token.isMove_id flavor p

end QuestScript
