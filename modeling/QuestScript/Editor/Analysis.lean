import QuestScript.Caret
import QuestScript.Diagnostic.Document

/-! # Analyses

An analysis holds a document with its parse and its catalog; an editor's questions about the
document are all answered from it. -/

namespace QuestScript

/-- A document and what is known about it. -/
structure Analysis where
  /-- The text of the document. -/
  source : String
  /-- The parsed document. -/
  parse : Parse
  /-- The symbols visible in it. -/
  catalog : Catalog

namespace Analysis

/-- The analysis of a document. -/
def ofSource (flavor : Flavor) (source : String) : Analysis :=
  let p := QuestScript.parse flavor source
  ⟨source, p, .ofParse p⟩

variable (a : Analysis)

/-- The flavor in which the document was read. -/
def flavor : Flavor := a.parse.flavor

/-- What the user is told about the document. -/
def diagnostics (casings : List String) : List Diagnostic := a.parse.diagnostics casings

/-- What lies under a position. -/
def hitAt (position : Position) : Option CaretHit := a.parse.resolve (.ofPosition position)

/-- The token under a position, where it stands in the tree. -/
def tokenAt (position : Position) : Option (Place × Token) := do
  let hit ← a.hitAt position
  let t ← hit.element.focus.token?
  return (hit.element, t)

/-- What the name at a place refers to. -/
def referenceKind? (p : Place) : Option SymbolKind :=
  if p.focus.isToken .identifier then classify a.flavor p else none

/-- The place holds the name of a state in its declaration. -/
def isStateDeclaration (p : Place) : Bool :=
  p.focus.isToken .identifier && p.parentKind? == some .stateBlock

/-- The name in a state's declaration, for a place that holds it or the keyword before it. -/
def stateDeclarationAt? (p : Place) : Option Place :=
  if isStateDeclaration p then some p
  else if p.focus.isToken (.keyword .state) && p.index? == some 0 then
    (p.parent?.bind (·.child? 1)).filter isStateDeclaration
  else none

/-- The names in the document, where they stand, in order. -/
def identifiers : List (Place × Token) :=
  (Place.root a.parse.tree).descendants.filterMap fun p =>
    (p.focus.token?.filter (·.kind == .identifier)).map (p, ·)

/-- The state whose name is at a place: the name declares it or refers to it. -/
def isStateName (p : Place) : Bool :=
  isStateDeclaration p || a.referenceKind? p == some .state

end Analysis

end QuestScript
