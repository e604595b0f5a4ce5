import QuestScript.Diagnostic.Report
import QuestScript.Parse
import QuestScript.Tree.Place

/-! # Invocations

An invocation must give every required argument and no more arguments than there are parameters,
each of its parameter's type. Types are compared only if the number of arguments is right. -/

namespace QuestScript

namespace ValueType

/-- The type of a literal. -/
def ofLiteral? : TokenKind → Option ValueType
  | .integer => some integer
  | .string => some string
  | _ => none

end ValueType

namespace Invocation

/-- An argument and its type, if the tree is one. -/
def argument? (flavor : Flavor) (t : Tree) : Option (Tree × ValueType) := do
  guard (t.isNode (Grammar.argumentKind flavor))
  let literal ← t.child? 0
  guard (literal.isNode .literal)
  let token ← (← literal.child? 0).token?
  let type ← ValueType.ofLiteral? token.kind
  return (t, type)

/-- The arguments in an argument list, with their types. -/
def arguments (flavor : Flavor) (list : Tree) : List (Tree × ValueType) :=
  match list.child? 1 with
  | some t => if t.isNode .arguments then t.children.filterMap (argument? flavor) else []
  | none => []

/-- The argument list after the name of an invocation, if anything stands in it. -/
def argumentList? (name : Place) : Option Tree :=
  name.next?.filter fun t => t.isNode .argumentList && decide (2 ≤ t.children.length)

/-- The finding for an argument whose type is not that of its parameter. -/
def checkType (p : Parse) (argument : Tree) (type expected : ValueType) : Report :=
  if type = expected then .nothing
  else .of do return [.plain (← p.spanOf argument) (.argumentType type expected)]

/-- The findings for the number of arguments or, if that is right, their types. -/
def checkArguments (p : Parse) (b : Builtin) (name : Place) (list : Tree) : Report :=
  let given := arguments p.flavor list
  let problem := Problem.argumentCount b.requiredCount b.parameters.length given.length
  if given.length < b.requiredCount then
    .of do
      let start := (← p.spanOf name.focus).start
      let stop := (← p.spanOf list).stop
      return [.plain ⟨start, stop⟩ problem]
  else match given.drop b.parameters.length with
    | first :: more =>
      .of do
        let start := (← p.spanOf first.1).start
        let stop := (← p.spanOf ((first :: more).getLast (by simp)).1).stop
        return [.plain ⟨start, stop⟩ problem]
    | [] =>
      .all ((given.zip b.parameters).map fun ((argument, type), parameter) =>
        checkType p argument type parameter.type)

/-- The findings for the invocation of a built-in by its name. -/
def check (p : Parse) (b : Builtin) (name : Place) : Report :=
  let preference : Report :=
    if b.name = "SetState" then .of do return [.plain (← p.spanOf name.focus) .gotoPreferred]
    else .nothing
  preference.andThen <| match argumentList? name with
    | some list => checkArguments p b name list
    | none => .nothing

end Invocation

end QuestScript
