import QuestScript.Diagnostic.Basic
import QuestScript.Symbol.Basic

/-! # Problems

Everything that can be wrong with a quest document, by its cause. A problem decides the wording and
the severity of the diagnostic that reports it. -/

namespace QuestScript

/-- What is wrong with a stretch of text. -/
inductive Problem
  /-- A string that is not closed on its line. -/
  | unterminatedString
  /-- Text that no rule of the lexer matches. -/
  | invalidInput
  /-- The grammar requires something that is not there. -/
  | expected (what : String)
  /-- A token stands where the grammar allows other things. -/
  | extraneous (found what : String)
  /-- Nothing of the kind has the name; another name may have been meant. -/
  | unresolved (kind : SymbolKind) (name : String) (suggestion : Option String)
  /-- The name is declared in another letter case. -/
  | referenceCasing (declared : String)
  /-- The state is set by an action where `goto` would do. -/
  | gotoPreferred
  /-- An invocation has too few or too many arguments. -/
  | argumentCount (required total count : Nat)
  /-- An argument is of another type than its parameter. -/
  | argumentType (argument parameter : ValueType)
  /-- A keyword is not written in lowercase. -/
  | keywordCasing (word : String)
  /-- There is another main block before. -/
  | duplicateMain
  /-- The main block has the attribute before. -/
  | duplicateAttribute (name : String)
  /-- Another state before has the name. -/
  | duplicateState (name : String)
  /-- The state has another description before. -/
  | duplicateDescription
  /-- A condition is not an expression that can hold. -/
  | gotoNotAllowed
  /-- The document has no main block. -/
  | missingMain
deriving DecidableEq, Repr

namespace Problem

/-- The text with its first letter in uppercase. -/
def capitalized (text : String) : String :=
  match text.toList with
  | [] => ""
  | c :: rest => String.ofList (c.toUpper :: rest)

/-- The text in quotes that do not open it. -/
def quoted (text : String) : String :=
  let mark := if text.toList.head? == some '\'' then "\"" else "'"
  mark ++ text ++ mark

/-- The number of arguments that an invocation takes, in words. -/
def argumentsExpected (required total : Nat) : String :=
  let number := if total = required then s!"{required}" else s!"{required}-{total}"
  number ++ (if required = 1 ∧ total = 1 then " argument" else " arguments")

/-- The question whether another name was meant. -/
def suggestionText : Option String → String
  | none => ""
  | some name => s!" Did you mean '{name}'?"

/-- What the user is told. -/
def message : Problem → String
  | unterminatedString => "Unterminated string literal."
  | invalidInput => "Invalid input."
  | expected what => capitalized what ++ " expected."
  | extraneous found what => s!"Extraneous input {quoted found} found (expecting {what})."
  | unresolved kind name suggestion =>
    s!"Cannot find {kind.name} '{name}'." ++ suggestionText suggestion
  | referenceCasing declared => s!"Name reference casing should match declaration ('{declared}')."
  | gotoPreferred => "'goto' expressions should be preferred over 'SetState'."
  | argumentCount required total count =>
    s!"Expected {argumentsExpected required total}, but got {count}."
  | argumentType argument parameter =>
    s!"Argument of type '{argument.name}' is not assignable to parameter of type " ++
      s!"'{parameter.name}'."
  | keywordCasing _ => "Keywords should be lowercase."
  | duplicateMain => "Cannot redeclare 'main' block."
  | duplicateAttribute name => s!"Cannot specify multiple '{name}' attributes."
  | duplicateState name => s!"Cannot redeclare state '{name}'."
  | duplicateDescription => "Cannot specify multiple state descriptions."
  | gotoNotAllowed => "'goto' expression is not allowed here."
  | missingMain => "'main' block is missing."

/-- Matters of style are warnings, all else is an error. -/
def severity : Problem → Severity
  | referenceCasing _ | gotoPreferred | keywordCasing _ => .warning
  | _ => .error

end Problem

/-- A problem, where it is and how it can be put right. -/
structure Finding where
  /-- The stretch of text. -/
  range : Span
  /-- What is wrong with it. -/
  problem : Problem
  /-- How it can be put right. -/
  fixes : List QuickFix
deriving DecidableEq, Repr

namespace Finding

/-- A finding that offers no fix. -/
def plain (range : Span) (problem : Problem) : Finding := ⟨range, problem, []⟩

/-- A finding with one fix that may be applied without asking: an edit. -/
def fixable (range : Span) (problem : Problem) (title : String) (edit : TextEdit) : Finding :=
  ⟨range, problem, [⟨title, [edit], true⟩]⟩

/-- What the user is told about the finding. -/
def toDiagnostic (f : Finding) : Diagnostic :=
  ⟨f.range, f.problem.severity, f.problem.message, .ofList f.fixes⟩

end Finding

end QuestScript
