import QuestScript.Tree.Place

/-! # Walks through a tree

How one gets from a place to others step by step: to a sibling past the hidden tokens in between, to the
child that a place is of its parent, and from the end of a tree backwards over its tokens until one is
found that the grammar sees. -/

namespace QuestScript.Place

/-! ### Siblings -/

/-- The first significant child in `after`, which comes after the children `before`. -/
def skipAfter (k : NodeKind) (path : List Frame) (before : List Tree) : (after : List Tree) → Option Place
  | [] => none
  | t :: after =>
    if t.isHidden then skipAfter k path (t :: before) after
    else some ⟨t, ⟨k, before, after⟩ :: path⟩

/-- The last significant child in `before`, which comes before the children `after`. -/
def skipBefore (k : NodeKind) (path : List Frame) (after : List Tree) : (before : List Tree) → Option Place
  | [] => none
  | t :: before =>
    if t.isHidden then skipBefore k path (t :: after) before
    else some ⟨t, ⟨k, before, after⟩ :: path⟩

/-- The place of the significant sibling right after. -/
def nextSibling? (p : Place) : Option Place :=
  p.path.head?.bind fun f => skipAfter f.kind p.path.tail (p.focus :: f.before) f.after

/-- The place of the significant sibling right before. -/
def previousSibling? (p : Place) : Option Place :=
  p.path.head?.bind fun f => skipBefore f.kind p.path.tail (p.focus :: f.after) f.before

/-! ### The index of a child -/

/-- Where the text of the place starts. -/
def startOffset (p : Place) : Nat := (p.focus.leaves.head?.map (·.offset)).getD 0

/-- In the two places stands the same thing: it is of one kind and starts at one offset. -/
def isSame (p q : Place) : Bool := p.focus.kind == q.focus.kind && p.startOffset == q.startOffset

/-- Which of its parent's significant children the place is. -/
def childIndex? (p : Place) : Option Nat :=
  p.parent?.bind fun parent => parent.children.findIdx? (·.isSame p)

/-! ### The last token -/

mutual
/-- The place of the last token of a tree. -/
def endLeaf? (path : List Frame) : Tree → Option Place
  | .token t => some ⟨.token t, path⟩
  | .node k cs => endLeafOf? k path [] cs
/-- The place of the last token in the last of the children, of which `before` come first. -/
def endLeafOf? (k : NodeKind) (path : List Frame) (before : List Tree) : List Tree → Option Place
  | [] => none
  | c :: cs =>
    if cs.isEmpty then endLeaf? (⟨k, before, cs⟩ :: path) c else endLeafOf? k path (c :: before) cs
end

/-- The place of the token right before a tree: it is the last one of the sibling before, or else comes
right before the parent. -/
def leafBefore? : Tree → List Frame → Option Place
  | _, [] => none
  | t, ⟨k, [], after⟩ :: path => leafBefore? (.node k (t :: after)) path
  | t, ⟨k, b :: before, after⟩ :: path => endLeaf? (⟨k, before, t :: after⟩ :: path) b

/-- The tokens before a place, from the start of the whole tree. -/
def leavesBefore : List Frame → List Token
  | [] => []
  | f :: path => leavesBefore path ++ Tree.leavesOf f.before.reverse

mutual
theorem of_endLeaf? {q : Place} : ∀ {path : List Frame} {t : Tree}, endLeaf? path t = some q →
    ∃ s, q.focus = .token s ∧ leavesBefore q.path ++ [s] = leavesBefore path ++ t.leaves
  | path, .token s, h => by
    rw [endLeaf?] at h
    obtain rfl := Option.some.inj h
    exact ⟨s, rfl, by rw [Tree.leaves_token]⟩
  | path, .node k cs, h => by
    rw [endLeaf?] at h
    obtain ⟨s, hs, hleaves⟩ := of_endLeafOf? h
    rw [List.reverse_nil, Tree.leavesOf_nil, List.append_nil] at hleaves
    exact ⟨s, hs, by rw [hleaves, Tree.leaves_node]⟩
theorem of_endLeafOf? {q : Place} {k : NodeKind} : ∀ {path : List Frame} {before cs : List Tree},
    endLeafOf? k path before cs = some q → ∃ s, q.focus = .token s ∧
      leavesBefore q.path ++ [s] =
        leavesBefore path ++ Tree.leavesOf before.reverse ++ Tree.leavesOf cs
  | path, before, [], h => by
    rw [endLeafOf?] at h
    cases h
  | path, before, c :: cs, h => by
    rw [endLeafOf?] at h
    split at h
    · rename_i hcs
      obtain rfl := List.isEmpty_iff.mp hcs
      obtain ⟨s, hs, hleaves⟩ := of_endLeaf? h
      exact ⟨s, hs, by rw [hleaves, leavesBefore, Tree.leavesOf_cons, Tree.leavesOf_nil, List.append_nil]⟩
    · obtain ⟨s, hs, hleaves⟩ := of_endLeafOf? h
      refine ⟨s, hs, hleaves.trans ?_⟩
      simp only [List.reverse_cons, Tree.leavesOf_append, Tree.leavesOf_cons, Tree.leavesOf_nil,
        List.append_nil, List.append_assoc]
end

/-- **A step backwards goes over one token.** -/
theorem of_leafBefore? {q : Place} {t : Tree} {path : List Frame} (h : leafBefore? t path = some q) :
    ∃ s, q.focus = .token s ∧ leavesBefore q.path ++ [s] = leavesBefore path := by
  fun_induction leafBefore? t path with
  | case1 => cases h
  | case2 t k after path ih =>
    obtain ⟨s, hs, hleaves⟩ := ih h
    exact ⟨s, hs, by simp [hleaves, leavesBefore]⟩
  | case3 t k b before after path =>
    obtain ⟨s, hs, hleaves⟩ := of_endLeaf? h
    exact ⟨s, hs, by simp [hleaves, leavesBefore]⟩

/-- Going backwards from a token, the first one that the grammar sees, unless an earlier one starts before
`start`. -/
def lastFrom? (start : Nat) (p : Place) : Option Token :=
  match p.focus with
  | .node _ _ => none
  | .token t =>
    if t.offset < start then none
    else if t.isSignificant then some t
    else match _h : leafBefore? p.focus p.path with
      | none => none
      | some q => lastFrom? start q
termination_by (leavesBefore p.path).length
decreasing_by
  obtain ⟨s, -, hleaves⟩ := of_leafBefore? _h
  rw [← hleaves, List.length_append, List.length_singleton]
  exact Nat.lt_succ_self _

/-- The last token at or below the place that the grammar sees, found from its end. -/
def lastToken? (p : Place) : Option Token :=
  match p.focus with
  | .token t => if t.isSignificant then some t else none
  | .node _ _ => (endLeaf? p.path p.focus).bind (lastFrom? p.startOffset)

end QuestScript.Place
