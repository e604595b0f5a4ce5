import QuestScript.Tree.Kind

/-! # Analysis errors

A tree and the token stream it was built from fit together in ways that the analysis relies on.
Should they ever not fit, the analysis stops with one of these errors and keeps what it found
before. -/

namespace QuestScript

/-- A tree that does not fit its token stream or its grammar. -/
inductive AnalysisError
  /-- An element has no significant token. -/
  | emptyNode (element : Kind)
  /-- No token of the stream starts where a leaf of the tree does. -/
  | tokenNotInStream (offset : Nat)
  /-- A node lacks a child that its rule guarantees. -/
  | missingChild (parent : Kind) (child : String)
deriving DecidableEq, Repr

namespace AnalysisError

/-- The wording of the error. -/
def message : AnalysisError → String
  | emptyNode element => s!"{element.name} node has no tokens"
  | tokenNotInStream offset => s!"no stream token at offset {offset}"
  | missingChild parent child => s!"{parent.name} node is missing its {child}"

end AnalysisError

end QuestScript
