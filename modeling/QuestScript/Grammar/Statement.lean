import QuestScript.Grammar.Argument

/-! # Statements

The statements of an official quest:

```text
statement = desc | rule | action
rule      = 'rule' IDENT argumentList 'goto' IDENT ';'?
action    = 'action' IDENT argumentList ';'?
argument  = expression
```

The statements of an EOSERV quest, whose operands are expressions:

```text
statement  = desc | rule | goal | if | elseif | else | action
rule       = 'rule' expression expression ';'?       (goal, if and elseif likewise)
action     = 'action' expression ';'?                (else likewise)
expression = IDENT argumentList | 'goto' IDENT | literal
argument   = argumentExpression
```

Both share the description of a state, `desc = 'desc' STRING ';'?`. -/

namespace QuestScript.Grammar

/-- The optional end of a statement. -/
def semicolon : Grammar := optional .semicolon

/-- The keyword of a statement or of a block. -/
def keyword (k : Keyword) : Grammar := expect (.keyword k)

/-- The description of a state. -/
def description : Grammar :=
  node .description (seq [keyword .description, expect .string, semicolon])

/-! ### Official statements -/

/-- A rule with its arguments and the state it leads to. -/
def officialRule : Grammar :=
  node .rule (seq [keyword .rule, expect .identifier, argumentList (argumentKind .official),
    keyword .goto, expect .identifier, semicolon])

/-- An action with its arguments. -/
def officialAction : Grammar :=
  node .action (seq [keyword .action, expect .identifier, argumentList (argumentKind .official),
    semicolon])

/-! ### EOSERV statements -/

/-- The kinds that an expression may start with. -/
def expressionFirst : List TokenKind := [.keyword .goto, .integer, .string, .identifier]

/-- An expression. It is run only where one of `expressionFirst` is ahead. -/
def expression : Grammar :=
  node .expression (byKind fun k =>
    if k = .identifier then
      node .invocationExpression (seq [expect .identifier, argumentList (argumentKind .eoserv)])
    else if k = .keyword .goto then
      node .gotoExpression (seq [keyword .goto, expect .identifier])
    else literal)

/-- A number of expressions. The first one that is missing is reported and ends them. -/
def expressions : Nat → Grammar
  | 0 => nothing
  | n + 1 => byKind fun k =>
    if k ∈ expressionFirst then seq [expression, expressions n] else missing expressionFirst

/-- A statement with its keyword and a number of operands. -/
def operandStatement (n : NodeKind) (k : Keyword) (operands : Nat) : Grammar :=
  node n (seq [keyword k, expressions operands, semicolon])

/-! ### Statements by keyword -/

/-- The statement that a keyword starts, without the node around it. -/
def statementBody? : Flavor → Keyword → Option Grammar
  | _, .description => some description
  | .official, .rule => some officialRule
  | .official, .action => some officialAction
  | .eoserv, .rule => some (operandStatement .rule .rule 2)
  | .eoserv, .goal => some (operandStatement .goal .goal 2)
  | .eoserv, .ifThen => some (operandStatement .ifThen .ifThen 2)
  | .eoserv, .elseIf => some (operandStatement .elseIf .elseIf 2)
  | .eoserv, .otherwise => some (operandStatement .otherwise .otherwise 1)
  | .eoserv, .action => some (operandStatement .action .action 1)
  | _, _ => none

/-- The keywords that start a statement, in the order in which editors offer them. -/
def statementKeywords : Flavor → List Keyword
  | .official => [.description, .rule, .action]
  | .eoserv => [.description, .rule, .goal, .ifThen, .elseIf, .otherwise, .action]

/-- The statement that a token of the kind starts. -/
def statement? (flavor : Flavor) : TokenKind → Option Grammar
  | .keyword k => (statementBody? flavor k).map (node .statement)
  | _ => none

theorem takes_statementBody {flavor : Flavor} {k : Keyword} {g : Grammar}
    (h : statementBody? flavor k = some g) : g.Takes (.keyword k) := by
  cases flavor <;> cases k <;> simp only [statementBody?, Option.some.injEq, reduceCtorEq] at h <;>
    subst h <;> exact ((takes_expect _).seq _).node _

theorem takes_statement {flavor : Flavor} {k : TokenKind} {g : Grammar}
    (h : statement? flavor k = some g) : g.Takes k := by
  cases k <;> simp only [statement?, reduceCtorEq, Option.map_eq_some_iff] at h
  obtain ⟨body, hb, rfl⟩ := h
  exact (takes_statementBody hb).node _

end QuestScript.Grammar
