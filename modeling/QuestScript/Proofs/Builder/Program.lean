import QuestScript.Proofs.Builder.Basic

/-! # Building the tree of a quest

The grammar as a builder goes through it: nodes are opened and closed around what is taken, the loops
over blocks, attributes, statements and further arguments go round turn by turn, and each says by itself
at which tokens it is over and at which skipping ends. -/

namespace QuestScript

namespace Step
open Grammar (literalFirst argumentKind expressionFirst statementKeywords attribute? attributeKeywords
  blockFirst)

/-! ### Literals and argument lists -/

/-- Takes a literal. -/
def literal : Step := within .literal take

/-- Takes an argument. -/
def argument (wrapper : NodeKind) : Step := within wrapper literal

/-- A turn of the loop over the arguments after the first: a comma and an argument. -/
def commaTurn (wrapper : NodeKind) (b : Builder) : Option Turn :=
  if b.lookAhead 0 = .comma then
    if b.take.lookAhead 0 ∈ literalFirst then (argument wrapper b.take).map .again
    else some (.stop (b.take.raise .missing literalFirst))
  else some (.stop b)

/-- Takes the arguments of a name. -/
def arguments (wrapper : NodeKind) : Step :=
  within .arguments (steps [argument wrapper, loop (commaTurn wrapper)])

/-- Takes what stands in an argument list after its opening parenthesis. -/
def argumentListBody (wrapper : NodeKind) : Step :=
  byKind fun k =>
    if k ∈ literalFirst then
      steps [arguments wrapper, expectIn .rightParen [.rightParen, .comma]]
    else expectIn .rightParen (.rightParen :: literalFirst)

/-- Takes an argument list, if one starts here. -/
def argumentList (wrapper : NodeKind) : Step :=
  byKind fun k =>
    if k = .leftParen then within .argumentList (steps [take, argumentListBody wrapper])
    else missing [.leftParen]

/-! ### Statements -/

/-- Takes the description of a state. -/
def description : Step :=
  within .description (steps [expect (.keyword .description), expect .string, eat .semicolon])

/-- Takes a rule of an official quest. -/
def officialRule : Step :=
  within .rule (steps [take, expect .identifier, argumentList (argumentKind .official),
    expect (.keyword .goto), expect .identifier, eat .semicolon])

/-- Takes an action of an official quest. -/
def officialAction : Step :=
  within .action (steps [take, expect .identifier, argumentList (argumentKind .official),
    eat .semicolon])

/-- Takes an expression. -/
def expression : Step :=
  within .expression (byKind fun k =>
    if k = .identifier then
      within .invocationExpression (steps [take, argumentList (argumentKind .eoserv)])
    else if k = .keyword .goto then within .gotoExpression (steps [take, expect .identifier])
    else literal)

/-- Takes a number of expressions, as long as one starts here. -/
def operands : Nat → Step
  | 0 => some
  | n + 1 => byKind fun k =>
    if k ∈ expressionFirst then steps [expression, operands n] else missing expressionFirst

/-- Takes a statement with its keyword and a number of operands. -/
def operandStatement (n : NodeKind) (count : Nat) : Step :=
  within n (steps [take, operands count, eat .semicolon])

/-- Takes the statement that a token of the kind starts. -/
def statementBody : Flavor → TokenKind → Step
  | _, .keyword .description => description
  | .official, .keyword .rule => officialRule
  | .official, _ => officialAction
  | .eoserv, .keyword .rule => operandStatement .rule 2
  | .eoserv, .keyword .goal => operandStatement .goal 2
  | .eoserv, .keyword .ifThen => operandStatement .ifThen 2
  | .eoserv, .keyword .elseIf => operandStatement .elseIf 2
  | .eoserv, .keyword .otherwise => operandStatement .otherwise 1
  | .eoserv, _ => operandStatement .action 1

/-- Takes a statement. -/
def statement (flavor : Flavor) : Step := within .statement (byKind (statementBody flavor))

/-- The loop over the statements of a state. -/
def statementLoop (flavor : Flavor) : ItemLoop where
  item? k := if k ∈ (statementKeywords flavor).map .keyword then some (statement flavor) else none
  closing := [.rightBrace, .endOfInput, .keyword .main, .keyword .state]
  expected := (statementKeywords flavor).map .keyword ++ [.rightBrace]
  resume := (statementKeywords flavor).map .keyword ++ [.rightBrace, .keyword .main, .keyword .state]

/-! ### Blocks -/

/-- Takes an attribute with its value, if it has one. -/
def mainAttribute (n : NodeKind) (value : Option TokenKind) : Step :=
  within .mainAttribute (within n (steps [take, (value.map expect).getD some, eat .semicolon]))

/-- Takes the attribute that a token of the kind starts. -/
def attributeOf? : TokenKind → Option Step
  | .keyword k => (attribute? k).map fun (n, value) => mainAttribute n value
  | _ => none

/-- The loop over the attributes of the main block. -/
def attributeLoop : ItemLoop where
  item? := attributeOf?
  closing := [.rightBrace, .endOfInput, .keyword .main, .keyword .state]
  expected := attributeKeywords.map .keyword ++ [.rightBrace]
  resume := attributeKeywords.map .keyword ++ [.rightBrace, .keyword .main, .keyword .state]

/-- Takes the main block. -/
def mainBlock : Step :=
  within .mainBlock (steps [expect (.keyword .main), expect .leftBrace, loop attributeLoop.turn,
    expect .rightBrace])

/-- Takes a state. -/
def stateBlock (flavor : Flavor) : Step :=
  within .stateBlock (steps [expect (.keyword .state), expect .identifier, expect .leftBrace,
    loop (statementLoop flavor).turn, expect .rightBrace])

/-- Takes a block. -/
def block (flavor : Flavor) : Step :=
  within .block (byKind fun k => if k = .keyword .main then mainBlock else stateBlock flavor)

/-- The loop over the blocks of a file. -/
def blockLoop (flavor : Flavor) : ItemLoop where
  item? k := if k = .keyword .main ∨ k = .keyword .state then some (block flavor) else none
  closing := [.endOfInput]
  expected := blockFirst
  resume := [.keyword .main, .keyword .state]

/-- Takes a whole document. -/
def file (flavor : Flavor) : Step :=
  within .file (steps [loop (blockLoop flavor).turn, fun b => some b.passHidden])

end Step

end QuestScript
