import QuestScript.Editor.Analysis

/-! # Outlines

The blocks of a document as an editor lists them: the first main block, then every state. -/

namespace QuestScript

/-- An entry of an outline. -/
structure OutlineEntry where
  /-- The name of the block. -/
  name : String
  /-- The description of the state, quotes included. -/
  detail : Option String
  /-- The span of the block. -/
  range : Span
  /-- The span of what names the block: the keyword `main` or the name of the state. -/
  selection : Span
deriving DecidableEq, Repr

namespace OutlineEntry

/-- The number by which editors know the kind of every entry: a module. -/
def kindCode : Nat := 2

end OutlineEntry

namespace Analysis

variable (a : Analysis)

/-- The first main block of the document. -/
def mainBlock? : Option Tree :=
  let blocks := a.parse.tree.children.filter (·.isNode .block)
  let contents := blocks.filterMap fun b => b.children.find? (·.token?.isNone)
  contents.find? (·.isNode .mainBlock)

/-- The entry of the main block. -/
def mainEntry? (block : Tree) : Option OutlineEntry := do
  let keyword ← block.child? 0
  return ⟨"main", none, ← a.parse.spanOf? block, ← a.parse.spanOf? keyword⟩

/-- The entry of a state. -/
def stateEntry? (s : StateSymbol) : Option OutlineEntry :=
  (a.parse.spanOf? s.block).map fun range => ⟨s.name, s.description, range, s.declaration.span⟩

/-- The outline of the document. -/
def outline : List OutlineEntry :=
  (a.mainBlock?.bind a.mainEntry?).toList ++ a.catalog.states.filterMap a.stateEntry?

end Analysis

end QuestScript
