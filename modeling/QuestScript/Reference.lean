import QuestScript.Symbol.Basic
import QuestScript.Tree.Place

/-! # References

Whether a name refers to a rule, an action or a state depends only on where it stands in the tree.
Each flavor lists the places that hold references. -/

namespace QuestScript

/-- Which child of its parent a reference is. -/
inductive Slot
  /-- The significant child at an index. -/
  | at (index : Nat)
  /-- The last significant child. -/
  | last
deriving DecidableEq, Repr

/-- Where a reference stands. -/
inductive Anchor
  /-- It is a child of a node of the kind. -/
  | child (parent : NodeKind) (slot : Slot)
  /-- It is the name invoked by the expression at an index of one of the statements. -/
  | callee (statements : List NodeKind) (index : Nat)
deriving DecidableEq, Repr

/-- A place that holds references. -/
structure Shape where
  /-- Where the reference stands. -/
  anchor : Anchor
  /-- The word right before the reference, if it has to be a certain one. -/
  after : Option String
  /-- What the reference refers to. -/
  kind : SymbolKind
deriving DecidableEq, Repr

namespace Slot

/-- The place is the slot's child of its parent. -/
def holds : Slot → Place → Bool
  | .at index, p => p.index? == some index
  | .last, p => p.isLast

end Slot

namespace Anchor

/-- The place is the child at an index of a node of one of the kinds. -/
def isChildAt (kinds : List NodeKind) (index : Nat) (p : Place) : Bool :=
  p.parentKind?.any kinds.contains && p.index? == some index

/-- The parent of the place satisfies `f`. -/
def parentSatisfies (f : Place → Bool) (p : Place) : Bool := p.parent?.any f

/-- The place is where the anchor says. -/
def holds : Anchor → Place → Bool
  | .child parent slot, p => p.parentKind? == some parent && slot.holds p
  | .callee statements index, p =>
    isChildAt [.invocationExpression] 0 p &&
      parentSatisfies (fun invocation =>
        isChildAt [.expression] 0 invocation &&
          parentSatisfies (isChildAt statements index) invocation) p

end Anchor

namespace Shape

/-- The sibling right before the place is the word, in any ASCII letter case. -/
def follows (word : String) (p : Place) : Bool :=
  p.previous?.any fun sibling => Ascii.sameWord sibling.text.toList word.toList

/-- The place holds a reference of the shape. -/
def holds (s : Shape) (p : Place) : Bool :=
  s.anchor.holds p && s.after.all (follows · p)

/-- The references of official quests: the name of a rule, the state it leads to and the name of an
action. -/
def official : List Shape := [
  ⟨.child .rule (.at 1), none, .rule⟩,
  ⟨.child .rule (.at 4), some "goto", .state⟩,
  ⟨.child .action (.at 1), none, .action⟩]

/-- The statements that start with a condition. -/
def conditional : List NodeKind := [.rule, .goal, .ifThen, .elseIf]

/-- The statements that only act. -/
def unconditional : List NodeKind := [.action, .otherwise]

/-- The references of EOSERV quests: the name invoked by a condition, the name invoked by what
follows from it or stands without condition, and the state that a `goto` leads to. -/
def eoserv : List Shape := [
  ⟨.callee conditional 1, none, .rule⟩,
  ⟨.callee conditional 2, none, .action⟩,
  ⟨.callee unconditional 1, none, .action⟩,
  ⟨.child .gotoExpression .last, some "goto", .state⟩]

/-- The shapes of a flavor, in the order in which they are tried. -/
def ofFlavor : Flavor → List Shape
  | .official => official
  | .eoserv => eoserv

end Shape

/-- What the element at a place refers to, going by its place alone. -/
def classify (flavor : Flavor) (p : Place) : Option SymbolKind :=
  ((Shape.ofFlavor flavor).find? (·.holds p)).map (·.kind)

end QuestScript
