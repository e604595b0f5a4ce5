import QuestScript.Grammar.Basic

/-! # Literals and argument lists

```text
literal      = INTEGER | STRING
argument     = literal
arguments    = argument (',' argument)*
argumentList = '(' arguments? ')'
```

The node around an argument depends on the flavor, so it is a parameter. -/

namespace QuestScript.Grammar

/-- The node around an argument. -/
def argumentKind : Flavor → NodeKind
  | .official => .expression
  | .eoserv => .argumentExpression

/-- The kinds of literals. -/
def literalFirst : List TokenKind := [.integer, .string]

/-- The tree of a literal. -/
def literalTree (t : Token) : Tree := .node .literal [.token t]

/-- The tree of an argument inside nodes of kind `wrapper`. -/
def argumentTree (wrapper : NodeKind) (t : Token) : Tree := .node wrapper [literalTree t]

/-- A literal. It is run only where one is ahead. -/
def literal : Grammar := next.node .literal

/-- An argument. It is run only where a literal is ahead. -/
def argument (wrapper : NodeKind) : Grammar := literal.node wrapper

/-- The arguments after the first, each after a comma. A comma that no argument follows is taken
too, with an error. -/
def moreArguments (wrapper : NodeKind) (rules : List NodeKind) : List Token → Outcome
  | [] => ⟨[], [], []⟩
  | comma :: ahead =>
    if comma.kind = .comma then
      match ahead with
      | t :: others =>
        if t.kind ∈ literalFirst then
          let more := moreArguments wrapper rules others
          ⟨.token comma :: argumentTree wrapper t :: more.trees, more.rest, more.errors⟩
        else
          ⟨[.token comma], t :: others, [.raise .missing literalFirst rules (t :: others)]⟩
      | [] => ⟨[.token comma], [], [.raise .missing literalFirst rules []]⟩
    else ⟨[], comma :: ahead, []⟩

/-- The arguments of an invocation. They are run only where a literal is ahead. -/
def arguments (wrapper : NodeKind) : Grammar :=
  node .arguments (.seq [argument wrapper, {
    run := moreArguments wrapper
    lossless := fun rules ahead => by
      fun_induction moreArguments wrapper rules ahead with
      | case1 => rfl
      | case2 comma _ t others _ more ih =>
        simp [argumentTree, literalTree, more, ih]
      | case3 => simp
      | case4 => simp
      | case5 => rfl }])

/-- What stands in an argument list after its opening parenthesis. -/
def argumentListBody (wrapper : NodeKind) : Grammar :=
  byKind fun k =>
    if k ∈ literalFirst then
      seq [arguments wrapper, expectIn .rightParen [.rightParen, .comma]]
    else expectIn .rightParen (.rightParen :: literalFirst)

/-- An argument list. Where its opening parenthesis is missing there is no node for it. -/
def argumentList (wrapper : NodeKind) : Grammar :=
  byKind fun k =>
    if k = .leftParen then
      node .argumentList (seq [expect .leftParen, argumentListBody wrapper])
    else missing [.leftParen]

end QuestScript.Grammar
