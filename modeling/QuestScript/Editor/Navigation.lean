import QuestScript.Editor.Analysis

/-! # Navigation between states

From a state's name to its declaration and to all references. Built-in rules and actions have no
declaration to go to. -/

namespace QuestScript

/-- Where a definition stands. -/
structure Definition where
  /-- The block that declares the state, cut short if it is long. -/
  range : Span
  /-- The state's name. -/
  selection : Span
deriving DecidableEq, Repr

namespace Definition

/-- Number of lines of a block that are shown after its first. -/
def peekLines : Nat := 7

/-- The column to which the last line of a block cut short is shown. -/
def peekColumn : Nat := 255

/-- The span of a block, cut short if it has too many lines. -/
def peek (block : Span) : Span :=
  if block.stop.line - block.start.line > peekLines then
    ⟨block.start, ⟨block.start.line + peekLines, peekColumn⟩⟩
  else block

end Definition

namespace Analysis

variable (a : Analysis)

/-- The declaration of the state with the given name and block. -/
def definitionIn (block : Tree) (name : Token) : Option Definition :=
  (a.parse.spanOf? block).map fun range => ⟨Definition.peek range, name.span⟩

/-- The state that the name at a place refers to. -/
def referencedState? (p : Place) (name : Token) : Option StateSymbol :=
  if a.referenceKind? p = some .state then
    (a.catalog.lookup? .state name.text).bind Symbol.state?
  else none

/-- The declaration of the state named at a position. -/
def definition (position : Position) : Option Definition := do
  let (place, t) ← a.tokenAt position
  if isStateDeclaration place then a.definitionIn (← place.parent?).focus t
  else
    let s ← a.referencedState? place t
    a.definitionIn s.block s.declaration

/-- The name that declares the state named at a position. -/
def declarationAt? (position : Position) : Option Token := do
  let (place, t) ← a.tokenAt position
  if isStateDeclaration place then some t
  else (a.referencedState? place t).map (·.declaration)

/-- The references to the state named at a position, in document order, and after them the
declaration if it is asked for. -/
def references (position : Position) (includeDeclaration : Bool) : List Span :=
  match a.declarationAt? position with
  | none => []
  | some name =>
    let found := a.identifiers.filter fun (place, t) =>
      namesMatch t.text name.text && a.referenceKind? place == some .state
    found.map (·.2.span) ++ (if includeDeclaration then [name.span] else [])

end Analysis

end QuestScript
