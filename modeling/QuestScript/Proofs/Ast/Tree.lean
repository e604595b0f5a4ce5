import QuestScript.Proofs.Ast.Basic
import QuestScript.Grammar.Argument

/-! # The trees of abstract quests

A quest made of tokens has a tree, whose leaves are its tokens (`Quest.leaves_toTree`). -/

namespace QuestScript.Ast

open Grammar

/-- A token of the kind. -/
abbrev Word (k : TokenKind) : Type := { t : Token // t.kind = k }

/-- The leaf that consists of a token. -/
def Word.tree {k : TokenKind} (w : Word k) : Tree := .token w.1

/-- The token at a leaf. -/
def Leaf.token (l : Leaf Word) : Token := l.word.1

theorem Leaf.kind_token (l : Leaf Word) : l.token.kind = l.kind := l.word.2

@[simp] theorem Leaf.token_plain {k : TokenKind} (w : Word k) : (Leaf.plain w).token = w.1 := rfl

@[simp] theorem Leaf.token_refers (kind : SymbolKind) (w : Word .identifier) :
    (Leaf.refers kind w).token = w.1 := rfl

@[simp] theorem Leaf.token_declares (w : Word .identifier) : (Leaf.declares w).token = w.1 := rfl

@[simp] theorem Word.leaves_tree {k : TokenKind} (w : Word k) : w.tree.leaves = [w.1] :=
  Tree.leaves_token w.1

/-- The leaf of an optional semicolon. -/
def closeTrees (close : Option (Word .semicolon)) : List Tree := (close.map Word.tree).toList

theorem leavesOf_closeTrees (close : Option (Word .semicolon)) :
    Tree.leavesOf (closeTrees close) = (Leaf.close close).map Leaf.token := by
  cases close <;> simp [closeTrees, Leaf.close]

/-! ### Trees -/

namespace Literal

/-- The token that it consists of. -/
def token (x : Literal Word) : Token := x.leaf.token

theorem token_mem_first (x : Literal Word) : x.token.kind ∈ literalFirst := by
  cases x with
  | integer w => simp [token, leaf, w.2, literalFirst]
  | string w => simp [token, leaf, w.2, literalFirst]

theorem exists_token {t : Token} (h : t.kind ∈ literalFirst) : ∃ x : Literal Word, x.token = t := by
  rcases List.mem_cons.mp h with h | h
  · exact ⟨.integer ⟨t, h⟩, rfl⟩
  · exact ⟨.string ⟨t, List.mem_singleton.mp h⟩, rfl⟩

end Literal

namespace ArgumentList

/-- A comma and the argument after it, inside a node of kind `wrapper`. -/
def commaTrees (wrapper : NodeKind) (x : Word .comma × Literal Word) : List Tree :=
  [x.1.tree, argumentTree wrapper x.2.token]

/-- What stands between the parentheses. -/
def innerTrees (wrapper : NodeKind) :
    Option (Literal Word × List (Word .comma × Literal Word)) → List Tree
  | none => []
  | some (first, more) =>
    [.node .arguments (argumentTree wrapper first.token :: more.flatMap (commaTrees wrapper))]

/-- The tree of an argument list, where arguments are inside nodes of kind `wrapper`. -/
def toTree (wrapper : NodeKind) (x : ArgumentList Word) : Tree :=
  .node .argumentList (x.opening.tree :: (innerTrees wrapper x.arguments ++ [x.closing.tree]))

theorem leaves_argumentTree (wrapper : NodeKind) (t : Token) :
    (argumentTree wrapper t).leaves = [t] := by
  simp [argumentTree, literalTree]

theorem leavesOf_innerTrees (wrapper : NodeKind)
    (x : Option (Literal Word × List (Word .comma × Literal Word))) :
    Tree.leavesOf (innerTrees wrapper x) = (innerLeaves x).map Leaf.token := by
  rcases x with _ | ⟨first, more⟩
  · simp [innerTrees, innerLeaves]
  · have hmore : Tree.leavesOf (more.flatMap (commaTrees wrapper)) =
        (more.flatMap commaLeaves).map Leaf.token := by
      induction more with
      | nil => simp
      | cons y more ih =>
        rw [List.flatMap_cons, Tree.leavesOf_append, ih, List.flatMap_cons, List.map_append]
        simp [commaTrees, commaLeaves, leaves_argumentTree, Literal.token]
    simp [innerTrees, innerLeaves, leaves_argumentTree, hmore, Literal.token]

theorem leaves_toTree (wrapper : NodeKind) (x : ArgumentList Word) :
    (x.toTree wrapper).leaves = x.leaves.map Leaf.token := by
  simp [toTree, leaves, leavesOf_innerTrees]

end ArgumentList

namespace Expression

/-- What stands inside the node of an expression. -/
def inner : Expression Word → Tree
  | invocation x => .node .invocationExpression
    [x.callee.tree, x.arguments.toTree (argumentKind .eoserv)]
  | goto keyword target => .node .gotoExpression [keyword.tree, target.tree]
  | literal x => literalTree x.token

/-- The tree of an expression. -/
def toTree (x : Expression Word) : Tree := .node .expression [x.inner]

theorem leaves_toTree (kind : SymbolKind) (x : Expression Word) :
    x.toTree.leaves = (x.leaves kind).map Leaf.token := by
  cases x with
  | invocation x => simp [toTree, inner, leaves, Invocation.leaves, ArgumentList.leaves_toTree]
  | goto keyword target => simp [toTree, inner, leaves]
  | literal x => simp [toTree, inner, leaves, literalTree, Literal.token]

end Expression

variable {flavor : Flavor}

namespace Statement

/-- The node of the statement. -/
def inner : Statement Word flavor → Tree
  | description keyword text close =>
    .node .description (keyword.tree :: text.tree :: closeTrees close)
  | rule keyword condition goto target close =>
    .node .rule (keyword.tree :: condition.callee.tree ::
      condition.arguments.toTree (argumentKind .official) :: goto.tree :: target.tree ::
      closeTrees close)
  | action keyword effect close =>
    .node .action (keyword.tree :: effect.callee.tree ::
      effect.arguments.toTree (argumentKind .official) :: closeTrees close)
  | conditional c keyword condition effect close =>
    .node c.nodeKind (keyword.tree :: condition.toTree :: effect.toTree :: closeTrees close)
  | unconditional c keyword effect close =>
    .node c.nodeKind (keyword.tree :: effect.toTree :: closeTrees close)

/-- The tree of a statement. -/
def toTree (x : Statement Word flavor) : Tree := .node .statement [x.inner]

theorem leaves_toTree (x : Statement Word flavor) :
    x.toTree.leaves = x.leaves.map Leaf.token := by
  cases x with
  | description keyword text close => simp [toTree, inner, leaves, leavesOf_closeTrees]
  | rule keyword condition goto target close =>
    simp [toTree, inner, leaves, Invocation.leaves, ArgumentList.leaves_toTree, leavesOf_closeTrees]
  | action keyword effect close =>
    simp [toTree, inner, leaves, Invocation.leaves, ArgumentList.leaves_toTree, leavesOf_closeTrees]
  | conditional c keyword condition effect close =>
    simp [toTree, inner, leaves, leavesOf_closeTrees, Expression.leaves_toTree .rule condition,
      Expression.leaves_toTree .action effect]
  | unconditional c keyword effect close =>
    simp [toTree, inner, leaves, leavesOf_closeTrees, Expression.leaves_toTree .action effect]

end Statement

namespace Attribute

/-- The node of the attribute. -/
def inner : Attribute Word → Tree
  | questName keyword value close =>
    .node .questNameAttribute (keyword.tree :: value.tree :: closeTrees close)
  | version keyword value close =>
    .node .versionAttribute (keyword.tree :: value.tree :: closeTrees close)
  | flag f keyword close => .node f.nodeKind (keyword.tree :: closeTrees close)

/-- The tree of an attribute. -/
def toTree (x : Attribute Word) : Tree := .node .mainAttribute [x.inner]

theorem leaves_toTree (x : Attribute Word) : x.toTree.leaves = x.leaves.map Leaf.token := by
  cases x <;> simp [toTree, inner, leaves, leavesOf_closeTrees]

end Attribute

theorem leavesOf_map {β : Type} {tree : β → Tree} {leaves : β → List (Leaf Word)}
    (h : ∀ x, (tree x).leaves = (leaves x).map Leaf.token) (xs : List β) :
    Tree.leavesOf (xs.map tree) = (xs.flatMap leaves).map Leaf.token := by
  induction xs with
  | nil => simp
  | cons x xs ih => simp [ih, h]

namespace MainBlock

/-- The tree of a main block. -/
def toTree (x : MainBlock Word) : Tree :=
  .node .mainBlock (x.keyword.tree :: x.opening.tree ::
    (x.attributes.map Attribute.toTree ++ [x.closing.tree]))

theorem leaves_toTree (x : MainBlock Word) : x.toTree.leaves = x.leaves.map Leaf.token := by
  simp [toTree, leaves, leavesOf_map Attribute.leaves_toTree]

end MainBlock

namespace StateBlock

/-- The tree of a state. -/
def toTree (x : StateBlock Word flavor) : Tree :=
  .node .stateBlock (x.keyword.tree :: x.name.tree :: x.opening.tree ::
    (x.statements.map Statement.toTree ++ [x.closing.tree]))

theorem leaves_toTree (x : StateBlock Word flavor) :
    x.toTree.leaves = x.leaves.map Leaf.token := by
  simp [toTree, leaves, leavesOf_map Statement.leaves_toTree]

end StateBlock

namespace Block

/-- The node of the block. -/
def inner : Block Word flavor → Tree
  | main x => x.toTree
  | state x => x.toTree

/-- The tree of a block. -/
def toTree (x : Block Word flavor) : Tree := .node .block [x.inner]

theorem leaves_toTree (x : Block Word flavor) : x.toTree.leaves = x.leaves.map Leaf.token := by
  cases x with
  | main x => simp [toTree, inner, leaves, MainBlock.leaves_toTree]
  | state x => simp [toTree, inner, leaves, StateBlock.leaves_toTree]

end Block

namespace Quest

/-- The tokens of a quest. -/
def tokens (q : Quest Word flavor) : List Token := q.leaves.map Leaf.token

/-- The tree of a quest. -/
def toTree (q : Quest Word flavor) : Tree := .node .file (q.blocks.map Block.toTree)

/-- **The leaves of a quest's tree are its tokens.** -/
theorem leaves_toTree (q : Quest Word flavor) : q.toTree.leaves = q.tokens := by
  simp [toTree, tokens, leaves, leavesOf_map Block.leaves_toTree]

end Quest

end QuestScript.Ast
