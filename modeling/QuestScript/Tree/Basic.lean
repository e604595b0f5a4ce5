import QuestScript.Token.Basic
import QuestScript.Tree.Kind

/-! # Syntax trees

A tree has tokens at its leaves and a node for every rule of the grammar. Hidden tokens may stand
among the children of a node; they take part in no grammar rule, so the *significant* children are
all others. -/

namespace QuestScript

/-- A syntax tree: a token, or a node with its children in order. -/
inductive Tree
  | token (t : Token)
  | node (kind : NodeKind) (children : List Tree)
deriving Repr

namespace Tree

instance : Inhabited Tree := ⟨node .file []⟩

/-- What the tree is. -/
def kind : Tree → Kind
  | token t => .token t.kind
  | node k _ => .node k

/-- The tree is a hidden token. -/
def isHidden : Tree → Bool
  | token t => t.isHidden
  | node _ _ => false

/-- The tree is a node of the given kind. -/
def isNode (k : NodeKind) (t : Tree) : Bool := t.kind == .node k

/-- The tree is a token of the given kind. -/
def isToken (k : TokenKind) (t : Tree) : Bool := t.kind == .token k

/-- The token that the tree consists of. -/
def token? : Tree → Option Token
  | token t => some t
  | node _ _ => none

/-- All children, hidden ones included. -/
def allChildren : Tree → List Tree
  | token _ => []
  | node _ cs => cs

/-- The significant children. -/
def children (t : Tree) : List Tree := t.allChildren.filter (!·.isHidden)

/-- The significant child at an index. -/
def child? (t : Tree) (index : Nat) : Option Tree := t.children[index]?

mutual
/-- The tokens at the leaves, from left to right. -/
def leaves : Tree → List Token
  | token t => [t]
  | node _ cs => leavesOf cs
/-- The tokens at the leaves of several trees. -/
def leavesOf : List Tree → List Token
  | [] => []
  | c :: cs => c.leaves ++ leavesOf cs
end

mutual
/-- The tree and all trees below it, each before its children. -/
def subtrees : Tree → List Tree
  | token t => [token t]
  | node k cs => node k cs :: subtreesOf cs
/-- All trees in and below several trees. -/
def subtreesOf : List Tree → List Tree
  | [] => []
  | c :: cs => c.subtrees ++ subtreesOf cs
end

/-- The tokens that the grammar sees, from left to right. -/
def significantTokens (t : Tree) : List Token := t.leaves.filter (·.isSignificant)

/-- The first token that the grammar sees. -/
def firstToken? (t : Tree) : Option Token := t.leaves.find? (·.isSignificant)

/-- The last token that the grammar sees. -/
def lastToken? (t : Tree) : Option Token := t.leaves.reverse.find? (·.isSignificant)

/-- The text of the significant tokens, without what stands between them. -/
def text (t : Tree) : String := String.join (t.significantTokens.map (·.text))

theorem eq_token_of_token? {t : Tree} {s : Token} (h : t.token? = some s) : t = .token s := by
  cases t with
  | token t =>
    cases h
    rfl
  | node k cs => cases h

theorem firstToken?_eq (t : Tree) : t.firstToken? = t.significantTokens.head? :=
  (List.head?_filter ..).symm

theorem lastToken?_eq (t : Tree) : t.lastToken? = t.significantTokens.getLast? := by
  rw [lastToken?, significantTokens, ← List.head?_reverse, ← List.filter_reverse, List.head?_filter]

@[simp] theorem leavesOf_nil : leavesOf [] = [] := by simp [leavesOf]

@[simp] theorem leavesOf_cons (t : Tree) (ts : List Tree) :
    leavesOf (t :: ts) = t.leaves ++ leavesOf ts := by simp [leavesOf]

@[simp] theorem leaves_token (t : Token) : (token t).leaves = [t] := by simp [leaves]

@[simp] theorem leaves_node (k : NodeKind) (cs : List Tree) : (node k cs).leaves = leavesOf cs := by
  simp [leaves]

@[simp] theorem leavesOf_append (ss ts : List Tree) :
    leavesOf (ss ++ ts) = leavesOf ss ++ leavesOf ts := by
  induction ss with
  | nil => simp
  | cons s ss ih => simp [ih]

end Tree

end QuestScript
