import QuestScript.Token.Kind

/-! # Kinds of nodes

Every rule of the grammar has a kind of node; one more kind holds a token that the parser skipped
to get past a syntax error. `Kind` is the kind of any element of a tree, token or node. -/

namespace QuestScript

/-- What a node is. -/
inductive NodeKind
  | file | block
  | mainBlock | mainAttribute
  | questNameAttribute | versionAttribute | hiddenAttribute | hiddenEndAttribute | disabledAttribute
  | stateBlock | statement
  | description | rule | goal | ifThen | elseIf | otherwise | action
  | expression | invocationExpression | gotoExpression
  | argumentList | arguments | argumentExpression | literal
  /-- One token skipped because of a syntax error. -/
  | error
deriving DecidableEq, Repr

namespace NodeKind

/-- Every kind of node, in vocabulary order. -/
def all : List NodeKind :=
  [file, block, mainBlock, mainAttribute, questNameAttribute, versionAttribute, hiddenAttribute,
    hiddenEndAttribute, disabledAttribute, stateBlock, statement, description, rule, goal, ifThen,
    elseIf, otherwise, action, expression, invocationExpression, gotoExpression, argumentList,
    arguments, argumentExpression, literal, error]

/-- The name of the kind. -/
def name : NodeKind → String
  | file => "FILE"
  | block => "BLOCK"
  | mainBlock => "MAIN_BLOCK"
  | mainAttribute => "MAIN_ATTRIBUTE"
  | questNameAttribute => "QUESTNAME_ATTRIBUTE"
  | versionAttribute => "VERSION_ATTRIBUTE"
  | hiddenAttribute => "HIDDEN_ATTRIBUTE"
  | hiddenEndAttribute => "HIDDEN_END_ATTRIBUTE"
  | disabledAttribute => "DISABLED_ATTRIBUTE"
  | stateBlock => "STATE_BLOCK"
  | statement => "STATEMENT"
  | description => "DESC"
  | rule => "RULE"
  | goal => "GOAL"
  | ifThen => "IF"
  | elseIf => "ELSEIF"
  | otherwise => "ELSE"
  | action => "ACTION"
  | expression => "EXPRESSION"
  | invocationExpression => "INVOCATION_EXPRESSION"
  | gotoExpression => "GOTO_EXPRESSION"
  | argumentList => "ARGUMENT_LIST"
  | arguments => "ARGUMENTS"
  | argumentExpression => "ARGUMENT_EXPRESSION"
  | literal => "LITERAL"
  | error => "ERROR"

/-- The name of the grammar rule that builds such nodes. -/
def ruleName? : NodeKind → Option String
  | file => some "file"
  | block => some "block"
  | mainBlock => some "mainBlock"
  | mainAttribute => some "mainAttribute"
  | questNameAttribute => some "questnameAttribute"
  | versionAttribute => some "versionAttribute"
  | hiddenAttribute => some "hiddenAttribute"
  | hiddenEndAttribute => some "hiddenEndAttribute"
  | disabledAttribute => some "disabledAttribute"
  | stateBlock => some "stateBlock"
  | statement => some "statement"
  | description => some "desc"
  | rule => some "rule"
  | goal => some "goal"
  | ifThen => some "if"
  | elseIf => some "elseif"
  | otherwise => some "else"
  | action => some "action"
  | expression => some "expression"
  | invocationExpression => some "invocationExpression"
  | gotoExpression => some "gotoExpression"
  | argumentList => some "argumentList"
  | arguments => some "arguments"
  | argumentExpression => some "argumentExpression"
  | literal => some "literal"
  | error => none

end NodeKind

/-- What an element of a tree is. -/
inductive Kind
  | token (k : TokenKind)
  | node (k : NodeKind)
deriving DecidableEq, Repr

namespace Kind

/-- One kind for every name: the vocabulary of tokens, then the nodes. Unknown text has the name of
the last kind of node. -/
def all : List Kind :=
  TokenKind.vocabulary.map token ++ NodeKind.all.map node

/-- The name of the kind. -/
def name : Kind → String
  | token k => k.name
  | node k => k.name

/-- The kind with a name, if any. -/
def ofName? (name : String) : Option Kind :=
  all.find? (·.name == name)

/-- The kind's name belongs to elements outside the grammar: trivia, unknown text or a token skipped
because of a syntax error. -/
def isOutsideGrammar : Kind → Bool
  | token k => k.isHidden
  | node k => k == .error

end Kind

end QuestScript
