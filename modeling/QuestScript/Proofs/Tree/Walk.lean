import QuestScript.Proofs.Tree.Zipper
import QuestScript.Tree.Walk

/-! # Walks arrive where the tree says

A walk to a sibling skips the hidden tokens in between, so it comes to the child of the parent at the next
index or the one before (`Place.siblings_of_index?`), and from there the walk the other way leads back. A
walk backwards from the end of a tree goes over the tokens of the whole tree one by one
(`Place.lastFrom?_eq`); where tokens are in order it stops before those in front of the tree, so it finds
the last token of the tree that the grammar sees (`Place.lastToken?_eq`). For both every tree below the
root needs to have a token (`Tree.IsSolid`). -/

namespace QuestScript

/-- Every tree below has a token. -/
def Tree.IsSolid (t : Tree) : Prop := ∀ u ∈ Tree.subtreesOf t.allChildren, u.leaves ≠ []

theorem Tree.isSolid_of_subtrees {t : Tree} (h : ∀ u ∈ t.subtrees, u.leaves ≠ []) : t.IsSolid :=
  fun u hu => h u (mem_subtrees_iff.mpr (.inr hu))

namespace Place

variable {root t : Tree} {p q parent : Place} {path : List Frame}

/-! ### Siblings -/

theorem head?_filter_among (k : NodeKind) (path : List Frame) (before after : List Tree) :
    ((among k path before after).filter (!·.focus.isHidden)).head? = skipAfter k path before after := by
  induction after generalizing before with
  | nil => rfl
  | cons t after ih =>
    rw [among, skipAfter]
    cases ht : t.isHidden with
    | true => rw [List.filter_cons_of_neg (by simp [ht]), ih, if_pos rfl]
    | false => rw [List.filter_cons_of_pos (by simp [ht]), List.head?_cons, if_neg Bool.false_ne_true]

/-- The significant children are those before a point, as many as its index, and those after it. The walk
back comes to the last of the former. -/
theorem exists_filter_among (k : NodeKind) (path : List Frame) (before after : List Tree) :
    ∃ earlier, (among k path [] (before.reverse ++ after)).filter (!·.focus.isHidden) =
        earlier ++ (among k path before after).filter (!·.focus.isHidden) ∧
      earlier.length = (before.filter (!·.isHidden)).length ∧
      earlier.getLast? = skipBefore k path after before := by
  induction before generalizing after with
  | nil => exact ⟨[], rfl, rfl, rfl⟩
  | cons t before ih =>
    obtain ⟨earlier, hchildren, hlength, hlast⟩ := ih (t :: after)
    rw [List.reverse_cons, List.append_assoc, List.singleton_append, skipBefore]
    rw [among] at hchildren
    cases ht : t.isHidden with
    | true =>
      rw [List.filter_cons_of_neg (by simp [ht])] at hchildren
      rw [List.filter_cons_of_neg (by simp [ht]), if_pos rfl]
      exact ⟨earlier, hchildren, hlength, hlast⟩
    | false =>
      rw [List.filter_cons_of_pos (by simp [ht])] at hchildren
      rw [List.filter_cons_of_pos (by simp [ht]), if_neg Bool.false_ne_true]
      refine ⟨earlier ++ [⟨t, ⟨k, before, after⟩ :: path⟩], ?_, ?_, List.getLast?_concat⟩
      · rw [hchildren, List.append_assoc, List.singleton_append]
      · rw [List.length_append, List.length_singleton, List.length_cons, hlength]

/-- **A walk to a sibling comes to the child at the next index or the one before.** -/
theorem siblings_of_index? {i : Nat} (hindex : p.index? = some i) (hparent : p.parent? = some parent) :
    parent.child? i = some p ∧ p.nextSibling? = parent.child? (i + 1) ∧
      p.previousSibling? = if i = 0 then none else parent.child? (i - 1) := by
  obtain ⟨t, _ | ⟨⟨k, before, after⟩, path⟩⟩ := p
  · cases hparent
  obtain rfl := Option.some.inj hparent
  have hchild : child? ⟨.node k (before.reverse ++ t :: after), path⟩ i = _ := child?_of_index? hindex
  obtain ⟨earlier, hchildren, hlength, hlast⟩ := exists_filter_among k path before (t :: after)
  have ht : t.isHidden = false := isHidden_of_index? hindex
  simp only [index?, ht, Bool.false_eq_true, if_false, Option.some.injEq] at hindex
  rw [among, List.filter_cons_of_pos (by simp [ht])] at hchildren
  have hchildren : (⟨.node k (before.reverse ++ t :: after), path⟩ : Place).children = _ := hchildren
  refine ⟨hchild, ?_, ?_⟩
  · have hnext : nextSibling? ⟨t, ⟨k, before, after⟩ :: path⟩ = skipAfter k path (t :: before) after := rfl
    rw [hnext, ← head?_filter_among, child?, hchildren, List.getElem?_append_right (by omega),
      List.head?_eq_getElem?]
    rw [hlength, hindex, Nat.add_sub_cancel_left]
    rfl
  · have hprevious : previousSibling? ⟨t, ⟨k, before, after⟩ :: path⟩ =
        skipBefore k path (t :: after) before := rfl
    rw [hprevious, ← hlast, List.getLast?_eq_getElem?, hlength, hindex]
    split
    · rename_i hzero
      have hnil : earlier = [] := List.eq_nil_of_length_eq_zero (by omega)
      rw [hnil]
      rfl
    · rw [child?, hchildren, List.getElem?_append_left (by omega)]

theorem of_getElem?_filter_among {k : NodeKind} {after : List Tree} {j : Nat} : ∀ {before : List Tree},
    ((among k path before after).filter (!·.focus.isHidden))[j]? = some q →
      q.index? = some ((before.filter (!·.isHidden)).length + j) ∧
        q.parent? = some ⟨.node k (before.reverse ++ after), path⟩ := by
  induction after generalizing j with
  | nil =>
    intro before h
    cases h
  | cons t after ih =>
    intro before h
    rw [among] at h
    have hsplit : before.reverse ++ t :: after = (t :: before).reverse ++ after := by simp
    cases ht : t.isHidden with
    | true =>
      rw [List.filter_cons_of_neg (by simp [ht])] at h
      obtain ⟨hindex, hparent⟩ := ih h
      rw [List.filter_cons_of_neg (by simp [ht])] at hindex
      exact ⟨hindex, hsplit ▸ hparent⟩
    | false =>
      rw [List.filter_cons_of_pos (by simp [ht])] at h
      cases j with
      | zero =>
        obtain rfl := Option.some.inj h
        exact ⟨by simp [index?, ht], rfl⟩
      | succ j =>
        have hmore : ((among k path (t :: before) after).filter (!·.focus.isHidden))[j]? = some q := h
        obtain ⟨hindex, hparent⟩ := ih hmore
        rw [List.filter_cons_of_pos (by simp [ht]), List.length_cons] at hindex
        exact ⟨by rw [hindex]; congr 1; omega, hsplit ▸ hparent⟩

/-- **A child is at its index, and its parent is the node.** -/
theorem of_child? {i : Nat} (h : p.child? i = some q) : q.index? = some i ∧ q.parent? = some p := by
  obtain ⟨_ | ⟨k, cs⟩, path⟩ := p
  · cases h
  · obtain ⟨hindex, hparent⟩ := of_getElem?_filter_among h
    exact ⟨by rw [hindex]; simp, hparent⟩

theorem exists_index? (ht : p.focus.isHidden = false) (hparent : p.parent? = some parent) :
    ∃ i, p.index? = some i := by
  obtain ⟨t, _ | ⟨f, path⟩⟩ := p
  · cases hparent
  · refine ⟨(f.before.filter (!·.isHidden)).length, ?_⟩
    rw [index?, ht]
    rfl

theorem previousSibling?_of_nextSibling? {i : Nat} (hindex : p.index? = some i)
    (hparent : p.parent? = some parent) (h : p.nextSibling? = some q) : q.previousSibling? = some p := by
  obtain ⟨hchild, hnext, -⟩ := siblings_of_index? hindex hparent
  rw [hnext] at h
  obtain ⟨hq, hqparent⟩ := of_child? h
  obtain ⟨-, -, hprevious⟩ := siblings_of_index? hq hqparent
  rw [hprevious, if_neg (Nat.succ_ne_zero i), Nat.add_sub_cancel, hchild]

theorem nextSibling?_of_previousSibling? {i : Nat} (hindex : p.index? = some i)
    (hparent : p.parent? = some parent) (h : p.previousSibling? = some q) :
    q.nextSibling? = some p := by
  obtain ⟨hchild, -, hprevious⟩ := siblings_of_index? hindex hparent
  rw [hprevious] at h
  split at h
  · cases h
  · rename_i hpos
    obtain ⟨hq, hqparent⟩ := of_child? h
    obtain ⟨-, hnext, -⟩ := siblings_of_index? hq hqparent
    rw [hnext, Nat.sub_add_cancel (Nat.pos_of_ne_zero hpos), hchild]

/-! ### Siblings without their places -/

theorem focus_skipAfter (k : NodeKind) (path : List Frame) (before after : List Tree) :
    (skipAfter k path before after).map (·.focus) = after.find? (!·.isHidden) := by
  induction after generalizing before with
  | nil => rfl
  | cons t after ih =>
    rw [skipAfter, List.find?_cons]
    cases t.isHidden with
    | true => exact ih (t :: before)
    | false => rfl

theorem focus_skipBefore (k : NodeKind) (path : List Frame) (after before : List Tree) :
    (skipBefore k path after before).map (·.focus) = before.find? (!·.isHidden) := by
  induction before generalizing after with
  | nil => rfl
  | cons t before ih =>
    rw [skipBefore, List.find?_cons]
    cases t.isHidden with
    | true => exact ih (t :: after)
    | false => rfl

theorem focus_siblings (p : Place) : p.nextSibling?.map (·.focus) = p.next? ∧
    p.previousSibling?.map (·.focus) = p.previous? := by
  obtain ⟨t, _ | ⟨f, path⟩⟩ := p
  · exact ⟨rfl, rfl⟩
  · exact ⟨focus_skipAfter f.kind path (t :: f.before) f.after,
      focus_skipBefore f.kind path (t :: f.after) f.before⟩

/-! ### Below the root -/

theorem subtreesOf_subset_of_whole : ∀ {path : List Frame} {t : Tree}, whole t path = root →
    (∀ u ∈ Tree.subtreesOf t.allChildren, u ∈ Tree.subtreesOf root.allChildren) ∧
      ∀ f ∈ path, ∀ u ∈ Tree.subtreesOf f.before, u ∈ Tree.subtreesOf root.allChildren := by
  intro path
  induction path with
  | nil =>
    rintro t rfl
    exact ⟨fun _ h => h, fun _ h => nomatch h⟩
  | cons f path ih =>
    intro t h
    obtain ⟨hparent, hpath⟩ := ih h
    have hchild : ∀ c ∈ f.before.reverse ++ t :: f.after, ∀ u ∈ c.subtrees,
        u ∈ Tree.subtreesOf root.allChildren := fun c hc u hu =>
      hparent u (Tree.mem_subtreesOf.mpr ⟨c, hc, hu⟩)
    refine ⟨fun u hu => ?_, fun g hg u hu => ?_⟩
    · exact hchild t (List.mem_append_right _ List.mem_cons_self) u (Tree.mem_subtrees_iff.mpr (.inr hu))
    · rcases List.mem_cons.mp hg with rfl | hg
      · obtain ⟨c, hc, hu⟩ := Tree.mem_subtreesOf.mp hu
        exact hchild c (List.mem_append_left _ (List.mem_reverse.mpr hc)) u hu
      · exact hpath g hg u hu

/-- The tokens of the whole tree are those before a place, those of its tree and others after it. -/
theorem exists_leaves_whole : ∀ (path : List Frame) (t : Tree),
    ∃ after, (whole t path).leaves = leavesBefore path ++ (t.leaves ++ after)
  | [], t => ⟨[], by simp [whole, leavesBefore]⟩
  | f :: path, t => by
    obtain ⟨after, h⟩ := exists_leaves_whole path (.node f.kind (f.before.reverse ++ t :: f.after))
    refine ⟨Tree.leavesOf f.after ++ after, ?_⟩
    rw [whole, h, leavesBefore, Tree.leaves_node, Tree.leavesOf_append, Tree.leavesOf_cons]
    simp only [List.append_assoc]

/-! ### The index of a child -/

theorem focus_mem_of_mem_among {k : NodeKind} {before cs : List Tree} (h : q ∈ among k path before cs) :
    q.focus ∈ cs := by
  induction cs generalizing before with
  | nil => cases h
  | cons c cs ih =>
    rcases List.mem_cons.mp h with rfl | h
    · exact List.mem_cons_self
    · exact List.mem_cons_of_mem c (ih h)

theorem startOffset_of_leaves {s : Token} {ss : List Token} (h : p.focus.leaves = s :: ss) :
    p.startOffset = s.offset := by
  rw [startOffset, h]
  rfl

theorem pairwise_startOffset_among {k : NodeKind} {cs : List Tree} : ∀ {before : List Tree},
    (Tree.leavesOf cs).Pairwise (·.offset < ·.offset) → (∀ c ∈ cs, c.leaves ≠ []) →
      (among k path before cs).Pairwise (·.startOffset < ·.startOffset) := by
  induction cs with
  | nil =>
    intro _ _ _
    exact List.Pairwise.nil
  | cons c cs ih =>
    intro before hsorted hne
    rw [Tree.leavesOf_cons, List.pairwise_append] at hsorted
    obtain ⟨-, hcs, hlt⟩ := hsorted
    obtain ⟨hc, hne⟩ := List.forall_mem_cons.mp hne
    refine List.pairwise_cons.mpr ⟨fun q hq => ?_, ih hcs hne⟩
    have hfocus := focus_mem_of_mem_among hq
    obtain ⟨a, as, ha⟩ := List.exists_cons_of_ne_nil hc
    obtain ⟨b, bs, hb⟩ := List.exists_cons_of_ne_nil (hne q.focus hfocus)
    have hstart : startOffset ⟨c, ⟨k, before, cs⟩ :: path⟩ = a.offset := startOffset_of_leaves ha
    rw [hstart, startOffset_of_leaves hb]
    exact hlt a (by simp [ha]) b (Tree.mem_leavesOf.mpr ⟨q.focus, hfocus, by simp [hb]⟩)

section Root
variable (hsorted : root.leaves.Pairwise (·.offset < ·.offset)) (hsolid : root.IsSolid)
include hsorted hsolid

theorem pairwise_startOffset_children (hp : p ∈ (Place.root root).descendants) :
    p.children.Pairwise (·.startOffset < ·.startOffset) := by
  have hinfix := leaves_infix hp
  have hleaves := hsorted.sublist hinfix.sublist
  have hbelow := (subtreesOf_subset_of_whole (mem_descendants_iff.mp hp)).1
  obtain ⟨_ | ⟨k, cs⟩, path⟩ := p
  · exact List.Pairwise.nil
  · rw [Tree.leaves_node] at hleaves
    refine (pairwise_startOffset_among hleaves fun c hc => ?_).sublist List.filter_sublist
    exact hsolid c (hbelow c (Tree.mem_subtreesOf_of_mem hc))

/-- **A child is looked up at its index**: those before it start elsewhere. -/
theorem childIndex?_eq {i : Nat} (hp : p ∈ (Place.root root).descendants) (hindex : p.index? = some i)
    (hparent : p.parent? = some parent) : p.childIndex? = some i := by
  have hpairwise := pairwise_startOffset_children hsorted hsolid (parent?_mem_descendants hp hparent)
  obtain ⟨hi, hchild⟩ := List.getElem?_eq_some_iff.mp (siblings_of_index? hindex hparent).1
  rw [childIndex?, hparent, Option.bind_some, List.findIdx?_eq_some_iff_getElem]
  refine ⟨hi, by simp [hchild, isSame], fun j hj => ?_⟩
  have hlt := List.pairwise_iff_getElem.mp hpairwise j i (by omega) hi hj
  rw [hchild] at hlt
  simp [isSame, Nat.ne_of_lt hlt]

end Root

/-! ### The last token -/

mutual
theorem mem_within_of_endLeaf? : ∀ {path : List Frame} {t : Tree}, endLeaf? path t = some q →
    q ∈ within path t
  | path, .token s, h => by
    rw [endLeaf?] at h
    rw [within, Option.some.inj h]
    exact List.mem_singleton_self _
  | path, .node k cs, h => by
    rw [endLeaf?] at h
    rw [within]
    exact List.mem_cons_of_mem _ (mem_withinAll_of_endLeafOf? h)
theorem mem_withinAll_of_endLeafOf? {k : NodeKind} : ∀ {path : List Frame} {before cs : List Tree},
    endLeafOf? k path before cs = some q → q ∈ withinAll k path before cs
  | path, before, [], h => by
    rw [endLeafOf?] at h
    cases h
  | path, before, c :: cs, h => by
    rw [endLeafOf?] at h
    rw [withinAll]
    split at h
    · exact List.mem_append_left _ (mem_within_of_endLeaf? h)
    · exact List.mem_append_right _ (mem_withinAll_of_endLeafOf? h)
end

/-- Without tokens there are no children. -/
theorem eq_nil_of_isSolid {k : NodeKind} {cs : List Tree} (h : (Tree.node k cs).IsSolid)
    (hleaves : (Tree.node k cs).leaves = []) : cs = [] := by
  by_contra hne
  obtain ⟨c, cs, rfl⟩ := List.exists_cons_of_ne_nil hne
  rw [Tree.leaves_node, Tree.leavesOf_cons] at hleaves
  exact h c (Tree.mem_subtreesOf_of_mem List.mem_cons_self) (List.append_eq_nil_iff.mp hleaves).1

mutual
theorem exists_endLeaf? : ∀ {path : List Frame} {t : Tree}, t.IsSolid → t.leaves ≠ [] →
    ∃ q, endLeaf? path t = some q
  | path, .token s, _, _ => ⟨_, by rw [endLeaf?]⟩
  | path, .node k cs, h, hne => by
    rw [endLeaf?]
    refine exists_endLeafOf? h fun hnil => hne ?_
    rw [hnil]
    rfl
theorem exists_endLeafOf? {k : NodeKind} : ∀ {path : List Frame} {before cs : List Tree},
    (∀ u ∈ Tree.subtreesOf cs, u.leaves ≠ []) → cs ≠ [] → ∃ q, endLeafOf? k path before cs = some q
  | path, before, [], _, hne => absurd rfl hne
  | path, before, c :: cs, h, _ => by
    rw [endLeafOf?]
    rw [Tree.subtreesOf, List.forall_mem_append] at h
    split
    · exact exists_endLeaf? (Tree.isSolid_of_subtrees h.1) (h.1 c c.self_mem_subtrees)
    · rename_i hcs
      exact exists_endLeafOf? h.2 fun hnil => hcs (List.isEmpty_iff.mpr hnil)
end

theorem whole_of_leafBefore? (h : leafBefore? t path = some q) :
    whole q.focus q.path = whole t path := by
  fun_induction leafBefore? t path with
  | case1 => cases h
  | case2 t k after path ih => exact ih h
  | case3 t k b before after path =>
    rw [whole_of_mem_within _ _ q (mem_within_of_endLeaf? h), whole, whole, List.reverse_cons,
      List.append_assoc, List.singleton_append]

/-- There is a step backwards until no token is left. -/
theorem exists_leafBefore? (hpath : ∀ f ∈ path, ∀ u ∈ Tree.subtreesOf f.before, u.leaves ≠ [])
    (hne : leavesBefore path ≠ []) : ∃ q, leafBefore? t path = some q := by
  fun_induction leafBefore? t path with
  | case1 => exact absurd rfl hne
  | case2 t k after path ih =>
    refine ih (fun f hf => hpath f (List.mem_cons_of_mem _ hf)) fun hnil => hne ?_
    simp [leavesBefore, hnil]
  | case3 t k b before after path =>
    have hbefore := hpath _ List.mem_cons_self
    rw [Tree.subtreesOf, List.forall_mem_append] at hbefore
    exact exists_endLeaf? (Tree.isSolid_of_subtrees hbefore.1) (hbefore.1 b b.self_mem_subtrees)

theorem leafBefore?_mem_descendants (hp : p ∈ (Place.root root).descendants)
    (h : leafBefore? p.focus p.path = some q) : q ∈ (Place.root root).descendants := by
  rw [mem_descendants_iff] at hp ⊢
  rw [whole_of_leafBefore? h, hp]

/-- **The walk backwards goes over all tokens up to a place**, until one starts before `start`. -/
theorem lastFrom?_eq (hsolid : root.IsSolid) {start : Nat} {s : Token}
    (hp : p ∈ (Place.root root).descendants) (hs : p.focus = .token s) : lastFrom? start p =
      ((leavesBefore p.path ++ [s]).reverse.takeWhile (start ≤ ·.offset)).find? (·.isSignificant) := by
  fun_induction lastFrom? start p generalizing s with
  | case1 p k cs hfocus =>
    rw [hfocus] at hs
    cases hs
  | case2 p t hfocus hlt =>
    obtain rfl : t = s := Tree.token.inj (hfocus.symm.trans hs)
    rw [List.reverse_concat', List.takeWhile_cons_of_neg (by simpa using hlt)]
    rfl
  | case3 p t hfocus hge hsig =>
    obtain rfl : t = s := Tree.token.inj (hfocus.symm.trans hs)
    rw [List.reverse_concat', List.takeWhile_cons_of_pos (by simpa using hge),
      List.find?_cons_of_pos hsig]
  | case4 p t hfocus hge hsig hnone =>
    obtain rfl : t = s := Tree.token.inj (hfocus.symm.trans hs)
    have hnil : leavesBefore p.path = [] := by
      by_contra hne
      have hpath := (subtreesOf_subset_of_whole (mem_descendants_iff.mp hp)).2
      obtain ⟨q, hq⟩ := exists_leafBefore? (t := p.focus)
        (fun f hf u hu => hsolid u (hpath f hf u hu)) hne
      rw [hnone] at hq
      cases hq
    rw [hnil, List.reverse_concat', List.takeWhile_cons_of_pos (by simpa using hge),
      List.find?_cons_of_neg hsig]
    rfl
  | case5 p t hfocus hge hsig q hq ih =>
    obtain rfl : t = s := Tree.token.inj (hfocus.symm.trans hs)
    obtain ⟨r, hr, hleaves⟩ := of_leafBefore? hq
    rw [ih (leafBefore?_mem_descendants hp hq) hr, hleaves, List.reverse_concat',
      List.takeWhile_cons_of_pos (by simpa using hge), List.find?_cons_of_neg hsig]

theorem takeWhile_reverse_append {before ts : List Token} {start : Nat}
    (hbefore : ∀ t ∈ before, t.offset < start) (hts : ∀ t ∈ ts, start ≤ t.offset) :
    (before ++ ts).reverse.takeWhile (start ≤ ·.offset) = ts.reverse := by
  have hstop : before.reverse.takeWhile (fun t => decide (start ≤ t.offset)) = [] := by
    cases hreverse : before.reverse with
    | nil => rfl
    | cons t more =>
      have hlt := hbefore t (List.mem_reverse.mp (hreverse ▸ List.mem_cons_self))
      exact List.takeWhile_cons_of_neg (by simpa using hlt)
  rw [List.reverse_append, List.takeWhile_append_of_pos (by simpa using hts), hstop, List.append_nil]

/-- Where tokens are in order, those before a tree start before its first one, and the others of the tree
after it. -/
theorem offset_of_leaves_whole {first : Token} {ts : List Token}
    (hsorted : (whole t path).leaves.Pairwise (·.offset < ·.offset)) (h : t.leaves = first :: ts) :
    (∀ s ∈ leavesBefore path, s.offset < first.offset) ∧ ∀ s ∈ t.leaves, first.offset ≤ s.offset := by
  obtain ⟨after, hleaves⟩ := exists_leaves_whole path t
  rw [hleaves, h, List.cons_append, List.pairwise_append, List.pairwise_cons] at hsorted
  obtain ⟨-, ⟨hfirst, -⟩, hbefore⟩ := hsorted
  refine ⟨fun s hs => hbefore s hs first List.mem_cons_self, ?_⟩
  rw [h]
  refine List.forall_mem_cons.mpr ⟨Nat.le_refl _, fun s hs => ?_⟩
  exact Nat.le_of_lt (hfirst s (List.mem_append_left after hs))

/-- **The walk from the end of a tree finds its last significant token**, if the tokens of the whole tree
are in order. -/
theorem lastToken?_eq (hsorted : root.leaves.Pairwise (·.offset < ·.offset)) (hsolid : root.IsSolid)
    (hp : p ∈ (Place.root root).descendants) : p.lastToken? = p.focus.lastToken? := by
  have hwhole := mem_descendants_iff.mp hp
  obtain ⟨_ | ⟨k, cs⟩, path⟩ := p
  · rename_i t
    rw [lastToken?, Tree.lastToken?, Tree.leaves_token, List.reverse_singleton, List.find?_singleton]
  have hbelow : (Tree.node k cs).IsSolid := fun u hu =>
    hsolid u ((subtreesOf_subset_of_whole hwhole).1 u hu)
  rw [lastToken?]
  dsimp only
  cases hall : (Tree.node k cs).leaves with
  | nil =>
    obtain rfl := eq_nil_of_isSolid hbelow hall
    rw [endLeaf?, endLeafOf?, Tree.lastToken?, hall]
    rfl
  | cons first ts =>
    obtain ⟨q, hq⟩ : ∃ q, endLeaf? path (.node k cs) = some q :=
      exists_endLeaf? hbelow (by rw [hall]; exact List.cons_ne_nil _ _)
    obtain ⟨s, hs, hend⟩ := of_endLeaf? hq
    have hmem : q ∈ (Place.root root).descendants := by
      rw [mem_descendants_iff, ← hwhole]
      exact whole_of_mem_within _ _ q (mem_within_of_endLeaf? hq)
    have hstart : startOffset ⟨.node k cs, path⟩ = first.offset := startOffset_of_leaves hall
    obtain ⟨hbefore, htree⟩ := offset_of_leaves_whole (hwhole ▸ hsorted) hall
    rw [hq, Option.bind_some, lastFrom?_eq hsolid hmem hs, hend, hstart,
      takeWhile_reverse_append hbefore htree, Tree.lastToken?]

end Place

end QuestScript
