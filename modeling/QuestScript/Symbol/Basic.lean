import QuestScript.Tree.Basic

/-! # Symbols

What a name in a quest can refer to: a rule or an action that the engine provides, or a state that
the document declares. -/

namespace QuestScript

/-- What kind of thing a symbol is. -/
inductive SymbolKind
  | rule | action | state
deriving DecidableEq, Repr

namespace SymbolKind

/-- The word for the kind. -/
def name : SymbolKind → String
  | rule => "rule"
  | action => "action"
  | state => "state"

end SymbolKind

/-- The type of a parameter and of a literal argument. -/
inductive ValueType
  | integer | string
deriving DecidableEq, Repr

namespace ValueType

/-- The word for the type. -/
def name : ValueType → String
  | integer => "integer"
  | string => "string"

end ValueType

/-- A parameter of a rule or an action. -/
structure Parameter where
  /-- Its name. -/
  name : String
  /-- The type of its arguments. -/
  type : ValueType
  /-- What it means. -/
  documentation : String
  /-- It may be left out. -/
  isOptional : Bool
deriving DecidableEq, Repr

namespace Parameter

/-- A parameter that must be given. -/
def required (name : String) (type : ValueType) (documentation : String) : Parameter :=
  ⟨name, type, documentation, false⟩

/-- A parameter that may be left out. -/
def optional (name : String) (type : ValueType) (documentation : String) : Parameter :=
  ⟨name, type, documentation, true⟩

/-- The parameter as it stands in a signature: its name, marked if it is optional, and its type. -/
def signature (p : Parameter) : String :=
  p.name ++ (if p.isOptional then "?" else "") ++ ": " ++ p.type.name

end Parameter

/-- A rule or an action that the engine provides. -/
structure Builtin where
  /-- Whether it is a rule or an action. -/
  kind : SymbolKind
  /-- Its name. -/
  name : String
  /-- What it does. -/
  documentation : String
  /-- Its parameters, those that must be given first. -/
  parameters : List Parameter
deriving DecidableEq, Repr

namespace Builtin

/-- Number of arguments that must be given: the parameters before the first optional one. -/
def requiredCount (b : Builtin) : Nat := (b.parameters.takeWhile (!·.isOptional)).length

/-- The name with its parameters. -/
def signature (b : Builtin) : String :=
  b.name ++ "(" ++ ", ".intercalate (b.parameters.map Parameter.signature) ++ ")"

end Builtin

/-- A state that the document declares. -/
structure StateSymbol where
  /-- The token that names it. -/
  declaration : Token
  /-- The block that declares it. -/
  block : Tree
  /-- The first description in its block, quotes included. -/
  description : Option String
deriving Repr

namespace StateSymbol

/-- The state's name. -/
def name (s : StateSymbol) : String := s.declaration.text

end StateSymbol

/-- What a name refers to. -/
inductive Symbol
  | builtin (b : Builtin)
  | state (s : StateSymbol)
deriving Repr

namespace Symbol

/-- The name under which the symbol is declared. -/
def name : Symbol → String
  | builtin b => b.name
  | state s => s.name

/-- What kind of thing the symbol is. -/
def kind : Symbol → SymbolKind
  | builtin b => b.kind
  | state _ => .state

/-- The built-in rule or action. -/
def builtin? : Symbol → Option Builtin
  | builtin b => some b
  | state _ => none

/-- The declared state. -/
def state? : Symbol → Option StateSymbol
  | builtin _ => none
  | state s => some s

end Symbol

end QuestScript
