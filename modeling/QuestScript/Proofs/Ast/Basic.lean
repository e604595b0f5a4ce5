import QuestScript.Symbol.Basic

/-! # Abstract quests

The documents of a flavor as data: a type for every construct of the language, with one field for
each of its tokens. What a token is known by is a parameter, which may depend on its kind: quests
over `Word` are made of the tokens of a document.

The leaves of a construct (`Quest.leaves`) are its tokens in order, each with its kind and with the
symbol it declares or refers to. -/

namespace QuestScript.Ast

/-! ### Leaves -/

/-- What a word says about a symbol. -/
inductive Role
  | plain
  /-- It names the state that its block declares. -/
  | declares
  /-- It refers to a symbol of the kind. -/
  | refers (kind : SymbolKind)
deriving DecidableEq, Repr

/-- It refers to a symbol. -/
def Role.isReference : Role → Bool
  | refers _ => true
  | _ => false

variable {α : TokenKind → Type} {flavor : Flavor}

/-- One token of a construct. -/
structure Leaf (α : TokenKind → Type) where
  kind : TokenKind
  role : Role
  word : α kind

namespace Leaf

/-- A word that has nothing to do with symbols. -/
def plain {k : TokenKind} (word : α k) : Leaf α := ⟨k, .plain, word⟩

/-- A name that refers to a symbol of the kind. -/
def refers (kind : SymbolKind) (word : α .identifier) : Leaf α := ⟨.identifier, .refers kind, word⟩

/-- The name of the state that is declared. -/
def declares (word : α .identifier) : Leaf α := ⟨.identifier, .declares, word⟩

/-- The optional semicolon at the end of a construct. -/
def close (word : Option (α .semicolon)) : List (Leaf α) := (word.map plain).toList

end Leaf

/-! ### Arguments -/

/-- An integer or a string. -/
inductive Literal (α : TokenKind → Type)
  | integer (word : α .integer)
  | string (word : α .string)

namespace Literal

/-- The type of its value. -/
def type : Literal α → ValueType
  | integer _ => .integer
  | string _ => .string

/-- Its only token. -/
def leaf : Literal α → Leaf α
  | integer word => .plain word
  | string word => .plain word

end Literal

/-- Arguments in parentheses: none, or one and more of them after commas. -/
structure ArgumentList (α : TokenKind → Type) where
  opening : α .leftParen
  arguments : Option (Literal α × List (α .comma × Literal α))
  closing : α .rightParen

namespace ArgumentList

/-- The arguments without the commas. -/
def literals (x : ArgumentList α) : List (Literal α) :=
  match x.arguments with
  | none => []
  | some (first, more) => first :: more.map Prod.snd

/-- A comma and the argument after it. -/
def commaLeaves (x : α .comma × Literal α) : List (Leaf α) := [.plain x.1, x.2.leaf]

/-- The tokens between the parentheses. -/
def innerLeaves : Option (Literal α × List (α .comma × Literal α)) → List (Leaf α)
  | none => []
  | some (first, more) => first.leaf :: more.flatMap commaLeaves

/-- Its tokens. -/
def leaves (x : ArgumentList α) : List (Leaf α) :=
  .plain x.opening :: (innerLeaves x.arguments ++ [.plain x.closing])

end ArgumentList

/-- A name with arguments. -/
structure Invocation (α : TokenKind → Type) where
  callee : α .identifier
  arguments : ArgumentList α

namespace Invocation

/-- Its tokens, where a symbol of the kind is invoked. -/
def leaves (kind : SymbolKind) (x : Invocation α) : List (Leaf α) :=
  .refers kind x.callee :: x.arguments.leaves

end Invocation

/-! ### Statements -/

/-- An operand of a statement of an EOSERV quest. -/
inductive Expression (α : TokenKind → Type)
  | invocation (x : Invocation α)
  | goto (keyword : α (.keyword .goto)) (target : α .identifier)
  | literal (x : Literal α)

namespace Expression

/-- Its tokens, where an invocation is of a symbol of the kind. -/
def leaves (kind : SymbolKind) : Expression α → List (Leaf α)
  | invocation x => x.leaves kind
  | goto keyword target => [.plain keyword, .refers .state target]
  | literal x => [x.leaf]

/-- What it invokes. -/
def invocation? : Expression α → Option (Invocation α)
  | invocation x => some x
  | _ => none

/-- It leads to a state. -/
def isGoto : Expression α → Bool
  | goto _ _ => true
  | _ => false

end Expression

/-- The statements of an EOSERV quest with a condition. -/
inductive Conditional
  | rule | goal | ifThen | elseIf
deriving DecidableEq, Repr

/-- The statements of an EOSERV quest without a condition. -/
inductive Unconditional
  | action | otherwise
deriving DecidableEq, Repr

namespace Conditional

/-- The keyword of the statement. -/
def keyword : Conditional → Keyword
  | rule => .rule
  | goal => .goal
  | ifThen => .ifThen
  | elseIf => .elseIf

/-- The node of the statement. -/
def nodeKind : Conditional → NodeKind
  | rule => .rule
  | goal => .goal
  | ifThen => .ifThen
  | elseIf => .elseIf

end Conditional

namespace Unconditional

/-- The keyword of the statement. -/
def keyword : Unconditional → Keyword
  | action => .action
  | otherwise => .otherwise

/-- The node of the statement. -/
def nodeKind : Unconditional → NodeKind
  | action => .action
  | otherwise => .otherwise

end Unconditional

/-- A statement of a state. -/
inductive Statement (α : TokenKind → Type) : Flavor → Type
  | description {flavor : Flavor} (keyword : α (.keyword .description)) (text : α .string)
    (close : Option (α .semicolon)) : Statement α flavor
  | rule (keyword : α (.keyword .rule)) (condition : Invocation α) (goto : α (.keyword .goto))
    (target : α .identifier) (close : Option (α .semicolon)) : Statement α .official
  | action (keyword : α (.keyword .action)) (effect : Invocation α)
    (close : Option (α .semicolon)) : Statement α .official
  | conditional (c : Conditional) (keyword : α (.keyword c.keyword))
    (condition effect : Expression α) (close : Option (α .semicolon)) : Statement α .eoserv
  | unconditional (c : Unconditional) (keyword : α (.keyword c.keyword)) (effect : Expression α)
    (close : Option (α .semicolon)) : Statement α .eoserv

namespace Statement

/-- Its tokens. A condition invokes a rule, an effect an action. -/
def leaves : Statement α flavor → List (Leaf α)
  | description keyword text close => [.plain keyword, .plain text] ++ Leaf.close close
  | rule keyword condition goto target close =>
    .plain keyword :: (condition.leaves .rule ++
      ([.plain goto, .refers .state target] ++ Leaf.close close))
  | action keyword effect close => .plain keyword :: (effect.leaves .action ++ Leaf.close close)
  | conditional _ keyword condition effect close =>
    .plain keyword :: (condition.leaves .rule ++ (effect.leaves .action ++ Leaf.close close))
  | unconditional _ keyword effect close =>
    .plain keyword :: (effect.leaves .action ++ Leaf.close close)

/-- What it invokes, and whether as a rule or as an action. -/
def invocations : Statement α flavor → List (SymbolKind × Invocation α)
  | description _ _ _ => []
  | rule _ condition _ _ _ => [(.rule, condition)]
  | action _ effect _ => [(.action, effect)]
  | conditional _ _ condition effect _ =>
    (condition.invocation?.map (.rule, ·)).toList ++ (effect.invocation?.map (.action, ·)).toList
  | unconditional _ _ effect _ => (effect.invocation?.map (.action, ·)).toList

/-- Its condition is none that can hold: it leads to a state. -/
def hasGotoCondition : Statement α flavor → Bool
  | conditional _ _ condition _ _ => condition.isGoto
  | _ => false

/-- It describes its state. -/
def isDescription : Statement α flavor → Bool
  | description _ _ _ => true
  | _ => false

end Statement

/-! ### Blocks -/

/-- The attributes without a value. -/
inductive Flag
  | hidden | hiddenEnd | disabled
deriving DecidableEq, Repr

namespace Flag

/-- The keyword of the attribute. -/
def keyword : Flag → Keyword
  | hidden => .hidden
  | hiddenEnd => .hiddenEnd
  | disabled => .disabled

/-- The node of the attribute. -/
def nodeKind : Flag → NodeKind
  | hidden => .hiddenAttribute
  | hiddenEnd => .hiddenEndAttribute
  | disabled => .disabledAttribute

end Flag

/-- An attribute of the main block. -/
inductive Attribute (α : TokenKind → Type)
  | questName (keyword : α (.keyword .questName)) (value : α .string)
    (close : Option (α .semicolon))
  | version (keyword : α (.keyword .version)) (value : α .integer) (close : Option (α .semicolon))
  | flag (f : Flag) (keyword : α (.keyword f.keyword)) (close : Option (α .semicolon))

namespace Attribute

/-- The attribute's keyword. -/
def keyword : Attribute α → Keyword
  | questName _ _ _ => .questName
  | version _ _ _ => .version
  | flag f _ _ => f.keyword

/-- Its tokens. -/
def leaves : Attribute α → List (Leaf α)
  | questName keyword value close => [.plain keyword, .plain value] ++ Leaf.close close
  | version keyword value close => [.plain keyword, .plain value] ++ Leaf.close close
  | flag _ keyword close => .plain keyword :: Leaf.close close

end Attribute

/-- A main block. -/
structure MainBlock (α : TokenKind → Type) where
  keyword : α (.keyword .main)
  opening : α .leftBrace
  attributes : List (Attribute α)
  closing : α .rightBrace

/-- A state. -/
structure StateBlock (α : TokenKind → Type) (flavor : Flavor) where
  keyword : α (.keyword .state)
  name : α .identifier
  opening : α .leftBrace
  statements : List (Statement α flavor)
  closing : α .rightBrace

/-- A block of a document. -/
inductive Block (α : TokenKind → Type) (flavor : Flavor)
  | main (x : MainBlock α)
  | state (x : StateBlock α flavor)

/-- A document that follows the grammar. -/
structure Quest (α : TokenKind → Type) (flavor : Flavor) where
  blocks : List (Block α flavor)

namespace MainBlock

/-- Its tokens. -/
def leaves (x : MainBlock α) : List (Leaf α) :=
  [.plain x.keyword, .plain x.opening] ++ (x.attributes.flatMap Attribute.leaves ++ [.plain x.closing])

end MainBlock

namespace StateBlock

/-- Its tokens. -/
def leaves (x : StateBlock α flavor) : List (Leaf α) :=
  [.plain x.keyword, .declares x.name, .plain x.opening] ++
    (x.statements.flatMap Statement.leaves ++ [.plain x.closing])

end StateBlock

namespace Block

/-- Its tokens. -/
def leaves : Block α flavor → List (Leaf α)
  | main x => x.leaves
  | state x => x.leaves

/-- The main block that it is. -/
def main? : Block α flavor → Option (MainBlock α)
  | main x => some x
  | state _ => none

/-- The state that it is. -/
def state? : Block α flavor → Option (StateBlock α flavor)
  | main _ => none
  | state x => some x

end Block

namespace Quest

/-- Its tokens. -/
def leaves (q : Quest α flavor) : List (Leaf α) := q.blocks.flatMap Block.leaves

/-- Its main blocks. -/
def mains (q : Quest α flavor) : List (MainBlock α) := q.blocks.filterMap Block.main?

/-- Its states. -/
def states (q : Quest α flavor) : List (StateBlock α flavor) := q.blocks.filterMap Block.state?

/-- The statements of its states. -/
def statements (q : Quest α flavor) : List (Statement α flavor) :=
  q.states.flatMap StateBlock.statements

end Quest

end QuestScript.Ast
