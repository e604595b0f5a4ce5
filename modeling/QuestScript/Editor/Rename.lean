import QuestScript.Editor.Analysis

/-! # Renaming states

A state is renamed wherever it is declared or referred to, in any letter case. On the keyword
`state` the caret counts as being on the name after it. -/

namespace QuestScript

/-- Why the element under a caret cannot be renamed. -/
inductive RenameError
  /-- It is no name of a state, rule or action. -/
  | element
  /-- Rules are built in. -/
  | rule
  /-- Actions are built in. -/
  | action
deriving DecidableEq, Repr

namespace RenameError

/-- The name of the reason. -/
def name : RenameError → String
  | element => "Element"
  | rule => "Rule"
  | action => "Action"

/-- What the user is told. -/
def message : RenameError → String
  | element => "You cannot rename this element."
  | rule => "You cannot rename rules."
  | action => "You cannot rename actions."

/-- The number by which editors know the reason. -/
def code : RenameError → Nat
  | element => 1001
  | rule => 1002
  | action => 1003

end RenameError

namespace Analysis

variable (a : Analysis)

/-- The state name to rename for a caret on an element. -/
def renameTarget (p : Place) : Except RenameError Token :=
  let name := (stateDeclarationAt? p).getD p
  match name.focus.token? with
  | none => .error .element
  | some t =>
    if isStateDeclaration name then .ok t
    else match a.referenceKind? name with
      | some .state => .ok t
      | some .rule => .error .rule
      | some .action => .error .action
      | none => .error .element

/-- The span of the name that a renaming at a position starts from. -/
def prepareRename (position : Position) : Except RenameError Span :=
  match a.hitAt position with
  | some hit => (a.renameTarget hit.element).map Token.span
  | none => .error .element

/-- The edits that rename the state at a position. -/
def rename (position : Position) (newName : String) : Option (List TextEdit) := do
  let hit ← a.hitAt position
  let old ← (a.renameTarget hit.element).toOption
  let found := a.identifiers.filter fun (place, t) =>
    namesMatch t.text old.text && a.isStateName place
  return found.map fun (_, t) => ⟨t.span, newName⟩

end Analysis

end QuestScript
