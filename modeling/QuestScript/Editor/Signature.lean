import QuestScript.Editor.Analysis

/-! # Signature help

While the caret is in an argument list, up to its closing parenthesis, an editor shows the signature
of the rule or action invoked and marks the parameter whose argument is under the caret. -/

namespace QuestScript

/-- The signature shown for an invocation. -/
structure SignatureHelp where
  /-- The rule or action invoked. -/
  builtin : Builtin
  /-- The index of the parameter under the caret. -/
  activeParameter : Nat
deriving DecidableEq, Repr

namespace Analysis

variable (a : Analysis)

/-- The argument list at or above a place. -/
def argumentListAt? (p : Place) : Option Place :=
  if p.focus.isNode .argumentList then some p else p.ancestor? .argumentList

/-- The position lies after the start of the parenthesis that closes the list. -/
def isPastClosing (list : Tree) (position : Position) : Bool :=
  match list.children.getLast? with
  | some last =>
    last.isToken .rightParen && (a.parse.startOf? last).any (decide <| · < position)
  | none => false

/-- Number of commas in an argument list that start before a position. -/
def activeParameter (list : Tree) (position : Position) : Nat :=
  match list.children.find? (·.isNode .arguments) with
  | some arguments =>
    ((arguments.children.filter (·.isToken .comma)).filterMap a.parse.startOf?).countP
      (decide <| · < position)
  | none => 0

/-- The rule or action that a name refers to. -/
def invoked? (name : Place) : Option Builtin := do
  let t ← name.focus.token?
  let kind ← a.referenceKind? name
  guard (kind ≠ .state)
  (← a.catalog.lookup? kind t.text).builtin?

/-- The signature to show at a position. -/
def signatureHelp (position : Position) : Option SignatureHelp := do
  let hit ← a.hitAt position
  let list ← argumentListAt? hit.element
  guard (!a.isPastClosing list.focus position)
  let name ← list.previousPlace?
  return ⟨← a.invoked? name, a.activeParameter list.focus position⟩

end Analysis

end QuestScript
