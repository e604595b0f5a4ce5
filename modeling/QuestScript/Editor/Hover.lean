import QuestScript.Editor.Analysis

/-! # Hover

What an editor shows about the name under the pointer: the declaration and the documentation of the
symbol, as Markdown. -/

namespace QuestScript

/-- The text shown about a name. -/
structure Hover where
  /-- The text, as Markdown. -/
  contents : String
  /-- The span of the name. -/
  range : Span
deriving DecidableEq, Repr

namespace Hover

/-- The lines between two fences. -/
def fenced (text : String) : String := "```\n" ++ text ++ "\n```"

/-- A state with its description. -/
def ofState (s : StateSymbol) : String :=
  fenced ("(state) " ++ s.name) ++ ((s.description.map ("\n" ++ fenced ·)).getD "")

/-- A parameter with its documentation. -/
def ofParameter (p : Parameter) : String :=
  "\n\n`" ++ p.name ++ "`" ++ (if p.isOptional then " *(optional)*" else "") ++ "  \n" ++
    p.documentation

/-- A built-in with its documentation and its parameters. -/
def ofBuiltin (b : Builtin) : String :=
  fenced ("(" ++ b.kind.name ++ ") " ++ b.signature) ++ "\n---\n" ++ b.documentation ++
    String.join (b.parameters.map ofParameter)

/-- What is shown about a symbol. -/
def ofSymbol : Symbol → String
  | .builtin b => ofBuiltin b
  | .state s => ofState s

end Hover

namespace Analysis

/-- What to show about the name at a position. -/
def hover (a : Analysis) (position : Position) : Option Hover := do
  let (place, t) ← a.tokenAt position
  let kind ← if isStateDeclaration place then some .state else a.referenceKind? place
  let symbol ← a.catalog.lookup? kind t.text
  return ⟨Hover.ofSymbol symbol, t.span⟩

end Analysis

end QuestScript
