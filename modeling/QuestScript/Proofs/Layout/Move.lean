import QuestScript.Proofs.Tree.Hom

/-! # Moving the tokens of a tree

When a document is laid out otherwise, its significant tokens stand elsewhere, but they are of the
same kinds and have the same texts. `Tree.move` puts the tokens of a tree elsewhere, `Place.move`
those of a place. The grammar does not notice (`Place.isHom_move`). -/

namespace QuestScript

namespace Tree

mutual
/-- The tree with its tokens moved. -/
def move (f : Token → Token) : Tree → Tree
  | token t => token (f t)
  | node k cs => node k (moveAll f cs)
/-- The trees with their tokens moved. -/
def moveAll (f : Token → Token) : List Tree → List Tree
  | [] => []
  | c :: cs => c.move f :: moveAll f cs
end

end Tree

/-- The frame with its tokens moved. -/
def Frame.move (f : Token → Token) (s : Frame) : Frame :=
  ⟨s.kind, s.before.map (Tree.move f), s.after.map (Tree.move f)⟩

/-- The place with all tokens around it moved. -/
def Place.move (f : Token → Token) (p : Place) : Place :=
  ⟨p.focus.move f, p.path.map (Frame.move f)⟩

variable {f : Token → Token}

/-! ### Trees -/

namespace Tree

@[simp] theorem moveAll_eq (ts : List Tree) : moveAll f ts = ts.map (move f) := by
  induction ts with
  | nil => rfl
  | cons t ts ih => rw [moveAll, ih, List.map_cons]

@[simp] theorem move_token (t : Token) : (token t).move f = .token (f t) := rfl

@[simp] theorem move_node (k : NodeKind) (cs : List Tree) :
    (node k cs).move f = .node k (cs.map (move f)) := by
  rw [move, moveAll_eq]

mutual
@[simp] theorem leaves_move : ∀ t : Tree, (t.move f).leaves = t.leaves.map f
  | .token t => by simp
  | .node k cs => by rw [move_node, leaves_node, leaves_node, leavesOf_move cs]
@[simp] theorem leavesOf_move : ∀ ts : List Tree, leavesOf (ts.map (move f)) = (leavesOf ts).map f
  | [] => by simp
  | t :: ts => by
    rw [List.map_cons, leavesOf_cons, leavesOf_cons, leaves_move t, leavesOf_move ts,
      List.map_append]
end

@[simp] theorem token?_move (t : Tree) : (t.move f).token? = t.token?.map f := by
  cases t with
  | token t => rfl
  | node k cs => rw [move_node]; rfl

section Moved
variable (hf : Token.KeepsKind f) (t : Tree)
include hf

theorem kind_move : (t.move f).kind = t.kind := by
  cases t with
  | token t => exact congrArg Kind.token (hf.kind t)
  | node k cs => rw [move_node]; rfl

theorem isHidden_move : (t.move f).isHidden = t.isHidden := by
  cases t with
  | token t => exact congrArg TokenKind.isHidden (hf.kind t)
  | node k cs => rw [move_node]; rfl

theorem children_move : (t.move f).children = t.children.map (move f) := by
  have hall : (t.move f).allChildren = t.allChildren.map (move f) := by
    cases t with
    | token t => rfl
    | node k cs => rw [move_node]; rfl
  rw [children, hall, List.filter_map, children]
  congr 2
  funext c
  rw [Function.comp_apply, isHidden_move hf]

theorem significant_comp : ((·.isSignificant) ∘ f) = (·.isSignificant) := by
  funext t
  rw [Function.comp_apply, Token.isSignificant, Token.isHidden, hf.kind]
  rfl

/-- **To move the tokens of a tree is a homomorphism.** -/
theorem isHom_move : IsHom f (move f) where
  kind := kind_move hf
  token? := token?_move
  children := children_move hf
  significantTokens t := by
    rw [significantTokens, leaves_move, List.filter_map, significant_comp hf, significantTokens]

end Moved

end Tree

/-! ### Places -/

namespace Place

mutual
theorem within_move : ∀ (path : List Frame) (t : Tree),
    within (path.map (Frame.move f)) (t.move f) = (within path t).map (Place.move f)
  | path, .token t => rfl
  | path, .node k cs => by
    rw [Tree.move_node, within, within, List.map_cons, ← withinAll_move k path [] cs, Place.move,
      Tree.move_node]
    rfl
theorem withinAll_move : ∀ (k : NodeKind) (path : List Frame) (before cs : List Tree),
    withinAll k (path.map (Frame.move f)) (before.map (Tree.move f)) (cs.map (Tree.move f)) =
      (withinAll k path before cs).map (Place.move f)
  | k, path, before, [] => rfl
  | k, path, before, c :: cs => by
    rw [List.map_cons, withinAll, withinAll, List.map_append, ← within_move _ c,
      ← withinAll_move k path (c :: before) cs]
    rfl
end

theorem parentKind?_move (p : Place) : (p.move f).parentKind? = p.parentKind? := by
  obtain ⟨t, _ | ⟨s, path⟩⟩ := p <;> rfl

theorem isError_move (p : Place) : (p.move f).isError = p.isError := by
  obtain ⟨t | ⟨k, cs⟩, path⟩ := p
  · exact congrArg (· == some NodeKind.error) (parentKind?_move ⟨.token t, path⟩)
  · rw [move, Tree.move_node]
    rfl

theorem parent?_move (p : Place) : (p.move f).parent? = p.parent?.map (Place.move f) := by
  obtain ⟨t, _ | ⟨s, path⟩⟩ := p
  · rfl
  · simp [move, parent?, Frame.move]

section Moved
variable (hf : Token.KeepsKind f) (p : Place)
include hf

theorem hidden_comp : (fun t : Tree => !(t.move f).isHidden) = (!·.isHidden) := by
  funext t
  rw [Tree.isHidden_move hf]

theorem index?_move : (p.move f).index? = p.index? := by
  obtain ⟨t, _ | ⟨s, path⟩⟩ := p
  · rfl
  · simp only [move, index?, List.map_cons, Frame.move, Tree.isHidden_move hf, List.filter_map,
      Function.comp_def, List.length_map]

theorem isLast_move : (p.move f).isLast = p.isLast := by
  obtain ⟨t, _ | ⟨s, path⟩⟩ := p
  · rfl
  · simp only [move, isLast, List.map_cons, Frame.move, Tree.isHidden_move hf, List.all_map,
      Function.comp_def]

theorem next?_move : (p.move f).next? = p.next?.map (Tree.move f) := by
  obtain ⟨t, _ | ⟨s, path⟩⟩ := p
  · rfl
  · simp only [move, next?, List.map_cons, List.head?_cons, Option.bind_some, Frame.move,
      List.find?_map, Function.comp_def, hidden_comp hf]

theorem previous?_move : (p.move f).previous? = p.previous?.map (Tree.move f) := by
  obtain ⟨t, _ | ⟨s, path⟩⟩ := p
  · rfl
  · simp only [move, previous?, List.map_cons, List.head?_cons, Option.bind_some, Frame.move,
      List.find?_map, Function.comp_def, hidden_comp hf]

theorem isHom_move : IsHom f (Tree.move f) (move f) where
  toIsHom := Tree.isHom_move hf
  focus _ := rfl
  parentKind? := parentKind?_move
  index? := index?_move hf
  isLast := isLast_move hf
  next? := next?_move hf
  previous? := previous?_move hf
  parent? p _ := parent?_move p

end Moved

end Place

end QuestScript
