import QuestScript.Tree.Basic

/-! # Places in a tree

A place is a tree seen from the root: the tree in focus and, for every node above it, the children
on either side. From a place one sees the parent, the ancestors and the siblings. Positions among
siblings count significant children only. -/

namespace QuestScript

/-- What surrounds the focus within one node. -/
structure Frame where
  /-- The kind of the node. -/
  kind : NodeKind
  /-- The children before the focus, the nearest first. -/
  before : List Tree
  /-- The children after the focus. -/
  after : List Tree

/-- A tree together with where it stands. -/
structure Place where
  /-- The tree at the place. -/
  focus : Tree
  /-- What surrounds it, from the parent to the root. -/
  path : List Frame

namespace Place

/-- A whole tree. -/
def root (t : Tree) : Place := ⟨t, []⟩

/-- The kind of the parent. -/
def parentKind? (p : Place) : Option NodeKind := p.path.head?.map (·.kind)

/-- The place of the parent. -/
def parent? (p : Place) : Option Place :=
  match p.path with
  | [] => none
  | f :: path => some ⟨.node f.kind (f.before.reverse ++ p.focus :: f.after), path⟩

/-- The places of the nodes around `t`, from the parent to the root. -/
def nodesAround : Tree → List Frame → List Place
  | _, [] => []
  | t, f :: path =>
    let node := .node f.kind (f.before.reverse ++ t :: f.after)
    ⟨node, path⟩ :: nodesAround node path

/-- The places above, from the parent to the root. -/
def ancestors (p : Place) : List Place := nodesAround p.focus p.path

/-- The nearest node of a kind above the place. -/
def ancestor? (p : Place) (k : NodeKind) : Option Place :=
  p.ancestors.find? (·.focus.isNode k)

/-- The number of significant siblings before the place; a hidden token has no index. -/
def index? (p : Place) : Option Nat :=
  match p.path with
  | [] => none
  | f :: _ => if p.focus.isHidden then none else some (f.before.filter (!·.isHidden)).length

/-- The place is the last of its parent's significant children. -/
def isLast (p : Place) : Bool :=
  match p.path with
  | [] => false
  | f :: _ => !p.focus.isHidden && f.after.all (·.isHidden)

/-- The significant sibling right after the place. -/
def next? (p : Place) : Option Tree :=
  p.path.head?.bind fun f => f.after.find? (!·.isHidden)

/-- The significant sibling right before the place. -/
def previous? (p : Place) : Option Tree :=
  p.path.head?.bind fun f => f.before.find? (!·.isHidden)

/-- The places of children of a node of kind `k`, of which `before` come first. -/
def among (k : NodeKind) (path : List Frame) (before : List Tree) : List Tree → List Place
  | [] => []
  | c :: cs => ⟨c, ⟨k, before, cs⟩ :: path⟩ :: among k path (c :: before) cs

/-- The places of all children, hidden ones included. -/
def allChildren (p : Place) : List Place :=
  match p.focus with
  | .token _ => []
  | .node k cs => among k p.path [] cs

/-- The places of the significant children. -/
def children (p : Place) : List Place := p.allChildren.filter (!·.focus.isHidden)

/-- The place of the significant child at an index. -/
def child? (p : Place) (index : Nat) : Option Place := p.children[index]?

/-- The place of the significant sibling right before. -/
def previousPlace? (p : Place) : Option Place :=
  match p.index? with
  | some (i + 1) => p.parent?.bind (·.child? i)
  | _ => none

mutual
/-- The places in and below `t`, each before its children. -/
def within (path : List Frame) : Tree → List Place
  | .token t => [⟨.token t, path⟩]
  | .node k cs => ⟨.node k cs, path⟩ :: withinAll k path [] cs
/-- The places in and below children of a node of kind `k`, of which `before` come first. -/
def withinAll (k : NodeKind) (path : List Frame) (before : List Tree) : List Tree → List Place
  | [] => []
  | c :: cs => within (⟨k, before, cs⟩ :: path) c ++ withinAll k path (c :: before) cs
end

/-- The place and all places below it, each before its children. -/
def descendants (p : Place) : List Place := within p.path p.focus

/-- The place of the first significant token at or below the place. -/
def firstLeaf? (p : Place) : Option Place :=
  p.descendants.find? fun q => q.focus.token?.any (·.isSignificant)

/-- The place comes from a syntax error: it is a skipped token or the node around one. -/
def isError (p : Place) : Bool :=
  match p.focus with
  | .node k _ => k == .error
  | .token _ => p.parentKind? == some .error

/-! ### What is above a place -/

variable {p q : Place}

theorem ancestors_of_parent? (h : p.parent? = some q) : p.ancestors = q :: q.ancestors := by
  obtain ⟨t, _ | ⟨f, path⟩⟩ := p
  · cases h
  · obtain rfl := Option.some.inj h
    rfl

theorem ancestors_eq_nil (h : p.parent? = none) : p.ancestors = [] := by
  obtain ⟨t, _ | ⟨f, path⟩⟩ := p
  · rfl
  · cases h

theorem isHidden_of_parent? (h : p.parent? = some q) : q.focus.isHidden = false := by
  obtain ⟨t, _ | ⟨f, path⟩⟩ := p
  · cases h
  · obtain rfl := Option.some.inj h
    rfl

theorem isHidden_of_index? {i : Nat} (h : p.index? = some i) : p.focus.isHidden = false := by
  obtain ⟨t, _ | ⟨f, path⟩⟩ := p
  · cases h
  · cases ht : t.isHidden with
    | false => rfl
    | true => simp [index?, ht] at h

end Place

end QuestScript
