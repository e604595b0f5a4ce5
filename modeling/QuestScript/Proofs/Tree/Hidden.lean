import QuestScript.Tree.Weave

/-! # Hidden tokens in a tree

Weaving puts the hidden tokens of a document back into the tree of its significant ones. The leaves
of the woven tree are the document (`leaves_weaveFile`), and taking the hidden tokens out again gives
the tree one started from (`withoutHidden_weaveFile`). -/

namespace QuestScript.Tree

/-! ### Taking hidden tokens out -/

mutual
/-- The tree without the hidden tokens below it. -/
def withoutHidden : Tree → Tree
  | token t => token t
  | node k cs => node k (withoutHiddenAll cs)
/-- The trees that are not hidden tokens, without the hidden tokens below them. -/
def withoutHiddenAll : List Tree → List Tree
  | [] => []
  | c :: cs => if c.isHidden then withoutHiddenAll cs else c.withoutHidden :: withoutHiddenAll cs
end

theorem withoutHiddenAll_hidden {hs : List Token} (h : ∀ t ∈ hs, t.isHidden = true)
    (cs : List Tree) : withoutHiddenAll (hs.map token ++ cs) = withoutHiddenAll cs := by
  induction hs with
  | nil => rfl
  | cons t hs ih =>
    have ht : (token t).isHidden = true := h t (by simp)
    rw [List.map_cons, List.cons_append, withoutHiddenAll, if_pos ht]
    exact ih fun u hu => h u (by simp [hu])

theorem kind_withoutHidden (t : Tree) : t.withoutHidden.kind = t.kind := by
  cases t <;> simp [withoutHidden, kind]

theorem withoutHiddenAll_eq (ts : List Tree) :
    withoutHiddenAll ts = (ts.filter (!·.isHidden)).map withoutHidden := by
  induction ts with
  | nil => rfl
  | cons t ts ih =>
    rw [withoutHiddenAll, ih]
    cases ht : t.isHidden
    · rw [if_neg (by simp), List.filter_cons_of_pos (by simp [ht]), List.map_cons]
    · rw [if_pos rfl, List.filter_cons_of_neg (by simp [ht])]

theorem map_kind_children (t : Tree) :
    t.children.map kind = t.withoutHidden.allChildren.map kind := by
  cases t with
  | token s => simp [withoutHidden, children, allChildren]
  | node k cs =>
    rw [withoutHidden, allChildren, withoutHiddenAll_eq, List.map_map]
    exact List.map_congr_left fun c _ => (kind_withoutHidden c).symm

mutual
theorem mem_subtrees_withoutHidden : ∀ (t : Tree) {u : Tree}, u ∈ t.subtrees → u.isHidden = false →
    u.withoutHidden ∈ t.withoutHidden.subtrees
  | token s, u, hu, _ => by
    rw [subtrees, List.mem_singleton] at hu
    rw [hu]
    simp [withoutHidden, subtrees]
  | node k cs, u, hu, hsig => by
    rw [subtrees, List.mem_cons] at hu
    rw [withoutHidden, subtrees, List.mem_cons]
    rcases hu with rfl | hu
    · exact .inl (by rw [withoutHidden])
    · exact .inr (mem_subtreesOf_withoutHiddenAll cs hu hsig)
theorem mem_subtreesOf_withoutHiddenAll : ∀ (ts : List Tree) {u : Tree}, u ∈ subtreesOf ts →
    u.isHidden = false → u.withoutHidden ∈ subtreesOf (withoutHiddenAll ts)
  | [], u, hu, _ => by simp [subtreesOf] at hu
  | t :: ts, u, hu, hsig => by
    rw [subtreesOf, List.mem_append] at hu
    rw [withoutHiddenAll]
    split
    · rename_i ht
      refine mem_subtreesOf_withoutHiddenAll ts (hu.resolve_left fun hu => ?_) hsig
      cases t with
      | token s =>
        rw [subtrees, List.mem_singleton] at hu
        rw [hu, ht] at hsig
        cases hsig
      | node k cs => cases ht
    · rw [subtreesOf, List.mem_append]
      exact hu.imp (mem_subtrees_withoutHidden t · hsig) (mem_subtreesOf_withoutHiddenAll ts · hsig)
end

mutual
theorem withoutHidden_eq_self : ∀ (t : Tree), (∀ l ∈ t.leaves, l.isSignificant = true) →
    t.withoutHidden = t
  | token s, _ => by rw [withoutHidden]
  | node k cs, h => by
    rw [leaves_node] at h
    rw [withoutHidden, withoutHiddenAll_eq_self cs h]
theorem withoutHiddenAll_eq_self : ∀ (ts : List Tree), (∀ l ∈ leavesOf ts, l.isSignificant = true) →
    withoutHiddenAll ts = ts
  | [], _ => rfl
  | t :: ts, h => by
    rw [leavesOf_cons] at h
    have ht : t.isHidden = false := by
      cases t with
      | token s => simpa [isHidden, Token.isSignificant] using h s (by simp)
      | node k cs => rfl
    rw [withoutHiddenAll, ht, if_neg (by simp),
      withoutHidden_eq_self t fun l hl => h l (List.mem_append_left _ hl),
      withoutHiddenAll_eq_self ts fun l hl => h l (List.mem_append_right _ hl)]
end

theorem leavesOf_map_token (ts : List Token) : leavesOf (ts.map token) = ts := by
  induction ts with
  | nil => rfl
  | cons t ts ih => rw [List.map_cons, leavesOf_cons, leaves_token, ih]; rfl

/-! ### What weaving needs to know of a document -/

theorem isSignificant_iff {t : Token} : t.isSignificant = true ↔ t.isHidden = false := by
  simp [Token.isSignificant]

theorem filter_dropWhile_isHidden (document : List Token) :
    (document.dropWhile (·.isHidden)).filter (·.isSignificant) =
      document.filter (·.isSignificant) := by
  induction document with
  | nil => rfl
  | cons t document ih =>
    by_cases ht : t.isHidden
    · have hs : t.isSignificant = false := by simp [Token.isSignificant, ht]
      rw [List.dropWhile_cons_of_pos ht, List.filter_cons_of_neg (by simp [hs]), ih]
    · rw [List.dropWhile_cons_of_neg ht]

/-- The document starts with a significant token, if with any. -/
def StartsSignificant (document : List Token) : Prop :=
  ∀ t ∈ document.head?, t.isSignificant = true

theorem startsSignificant_dropWhile (document : List Token) :
    StartsSignificant (document.dropWhile (·.isHidden)) := by
  intro t ht
  have h := List.head?_dropWhile_not (·.isHidden) document
  rw [Option.mem_def.mp ht] at h
  exact isSignificant_iff.mpr (by simpa using h)

theorem filter_eq_cons {document more : List Token} {t : Token}
    (hs : StartsSignificant document) (h : document.filter (·.isSignificant) = t :: more) :
    ∃ rest, document = t :: rest ∧ rest.filter (·.isSignificant) = more := by
  cases document with
  | nil => simp at h
  | cons u rest =>
    have hu : u.isSignificant = true := hs u (by simp)
    rw [List.filter_cons_of_pos hu] at h
    obtain ⟨rfl, hr⟩ := List.cons.inj h
    exact ⟨rest, rfl, hr⟩

/-! ### The leaves of a woven tree -/

mutual
/-- A woven tree and the tokens left over are the document; the tokens left over hold the
significant tokens that are not leaves of the tree. -/
theorem leaves_weave : ∀ (t : Tree) {document more : List Token},
    document.filter (·.isSignificant) = t.leaves ++ more →
    (t.leaves = [] ∨ StartsSignificant document) →
      (t.weave document).1.leaves ++ (t.weave document).2 = document ∧
        (t.weave document).2.filter (·.isSignificant) = more
  | token t, document, more, h, hs => by
    rw [leaves_token] at h hs
    have hs' : StartsSignificant document := hs.resolve_left (by simp)
    obtain ⟨rest, rfl, hr⟩ := filter_eq_cons hs' h
    simp [weave, hr]
  | node k [], document, more, h, _ => by
    simpa [weave] using h
  | node k (c :: cs), document, more, h, hs => by
    rw [leaves_node, leavesOf_cons] at h hs
    rw [List.append_assoc] at h
    have hc : c.leaves = [] ∨ StartsSignificant document :=
      hs.imp_left fun h => (List.append_eq_nil_iff.mp h).1
    obtain ⟨h1, h2⟩ := leaves_weave c h hc
    obtain ⟨h3, h4⟩ := leavesOf_weaveAll cs h2
    refine ⟨?_, h4⟩
    simp only [weave, leaves_node, leavesOf_cons, List.append_assoc]
    rw [h3, h1]
theorem leavesOf_weaveAll : ∀ (ts : List Tree) {document more : List Token},
    document.filter (·.isSignificant) = leavesOf ts ++ more →
      leavesOf (weaveAll ts document).1 ++ (weaveAll ts document).2 = document ∧
        (weaveAll ts document).2.filter (·.isSignificant) = more
  | [], document, more, h => by simpa [weaveAll] using h
  | c :: cs, document, more, h => by
    rw [leavesOf_cons, List.append_assoc, ← filter_dropWhile_isHidden] at h
    obtain ⟨h1, h2⟩ := leaves_weave c h (Or.inr (startsSignificant_dropWhile document))
    obtain ⟨h3, h4⟩ := leavesOf_weaveAll cs h2
    refine ⟨?_, h4⟩
    simp only [weaveAll, leavesOf_append, leavesOf_map_token, leavesOf_cons, List.append_assoc]
    rw [h3, h1, List.takeWhile_append_dropWhile]
end

/-- **The leaves of a woven file are its document.** -/
theorem leaves_weaveFile {t : Tree} {document : List Token}
    (h : document.filter (·.isSignificant) = leavesOf t.allChildren) :
    (t.weaveFile document).leaves = document := by
  have h' : document.filter (·.isSignificant) = leavesOf t.allChildren ++ [] := by
    rw [List.append_nil, h]
  simp only [weaveFile, leaves_node, leavesOf_append, leavesOf_map_token]
  exact (leavesOf_weaveAll _ h').1

/-! ### The tree within a woven tree -/

mutual
theorem withoutHidden_weave : ∀ (t : Tree) (document : List Token),
    (∀ l ∈ t.leaves, l.isSignificant = true) →
      (t.weave document).1.withoutHidden = t ∧ (t.weave document).1.isHidden = false
  | token t, document, h => by
    have ht : t.isHidden = false := isSignificant_iff.mp (h t (by simp))
    exact ⟨by simp [weave, withoutHidden], by simpa [weave, isHidden] using ht⟩
  | node k [], document, _ => ⟨by simp [weave, withoutHidden, withoutHiddenAll], by simp [weave, isHidden]⟩
  | node k (c :: cs), document, h => by
    rw [leaves_node, leavesOf_cons] at h
    obtain ⟨h1, h2⟩ := withoutHidden_weave c document fun l hl => h l (by simp [hl])
    have h3 := withoutHiddenAll_weaveAll cs (c.weave document).2 fun l hl => h l (by simp [hl])
    refine ⟨?_, by simp [weave, isHidden]⟩
    simp only [weave, withoutHidden, withoutHiddenAll]
    rw [if_neg (by simp [h2]), h1, h3]
theorem withoutHiddenAll_weaveAll : ∀ (ts : List Tree) (document : List Token),
    (∀ l ∈ leavesOf ts, l.isSignificant = true) →
      withoutHiddenAll (weaveAll ts document).1 = ts
  | [], document, _ => by simp [weaveAll, withoutHiddenAll]
  | c :: cs, document, h => by
    rw [leavesOf_cons] at h
    obtain ⟨h1, h2⟩ := withoutHidden_weave c (document.dropWhile (·.isHidden))
      fun l hl => h l (by simp [hl])
    have h3 := withoutHiddenAll_weaveAll cs (c.weave (document.dropWhile (·.isHidden))).2
      fun l hl => h l (by simp [hl])
    have hhidden : ∀ t ∈ document.takeWhile (·.isHidden), t.isHidden = true :=
      List.all_eq_true.mp List.all_takeWhile
    simp only [weaveAll]
    rw [withoutHiddenAll_hidden hhidden, withoutHiddenAll, if_neg (by simp [h2]), h1, h3]
end

/-- **Without its hidden tokens a woven file is the tree it was woven from.** -/
theorem withoutHidden_weaveFile {ts : List Tree} {document : List Token}
    (h : document.filter (·.isSignificant) = leavesOf ts) :
    ((node .file ts).weaveFile document).withoutHidden = node .file ts := by
  have hsig : ∀ l ∈ leavesOf ts, l.isSignificant = true := fun l hl =>
    (List.mem_filter.mp (h ▸ hl)).2
  have h' : document.filter (·.isSignificant) = leavesOf ts ++ [] := by rw [List.append_nil, h]
  have hrest : ∀ t ∈ (weaveAll ts document).2, t.isHidden = true := by
    intro t ht
    have := List.filter_eq_nil_iff.mp (leavesOf_weaveAll ts h').2 t ht
    simpa [Token.isSignificant] using this
  have happ : ∀ cs : List Tree, withoutHiddenAll (cs ++ (weaveAll ts document).2.map token) =
      withoutHiddenAll cs := by
    intro cs
    induction cs with
    | nil =>
      have := withoutHiddenAll_hidden hrest []
      rwa [List.append_nil] at this
    | cons c cs ih => simp only [List.cons_append, withoutHiddenAll, ih]
  simp only [weaveFile, allChildren, withoutHidden]
  rw [happ, withoutHiddenAll_weaveAll ts document hsig]

end QuestScript.Tree
