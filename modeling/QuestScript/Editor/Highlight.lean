import QuestScript.Editor.Analysis

/-! # Highlighting

The names of a document that an editor colors by what they refer to, and the numbers by which they
are sent: each token is placed relative to the one before. -/

namespace QuestScript

/-- How a name is colored. -/
inductive HighlightKind
  /-- A state. -/
  | type
  /-- A rule or an action. -/
  | method
deriving DecidableEq, Repr

namespace HighlightKind

/-- The name of the kind. -/
def name : HighlightKind → String
  | type => "type"
  | method => "method"

/-- The number of the kind. -/
def index : HighlightKind → Nat
  | type => 0
  | method => 1

/-- The kind of a reference. -/
def ofSymbolKind : SymbolKind → HighlightKind
  | .state => type
  | .rule | .action => method

end HighlightKind

/-- A colored name. -/
structure Highlight where
  /-- Number of lines above it. -/
  line : Nat
  /-- Number of characters before it on its line. -/
  column : Nat
  /-- Number of its characters. -/
  length : Nat
  /-- How it is colored. -/
  kind : HighlightKind
  /-- It declares what it names. -/
  isDeclaration : Bool
deriving DecidableEq, Repr

namespace Highlight

/-- The set of marks on the name, as a number. -/
def modifierBits (h : Highlight) : Nat := if h.isDeclaration then 1 else 0

/-- The numbers of colored names after a name at the given line and column: how many lines further
each is, how many columns further on the same line, its length, its kind and its marks. -/
def encodeFrom : (line column : Nat) → List Highlight → List Nat
  | _, _, [] => []
  | line, column, h :: hs =>
    let lines := h.line - line
    let columns := if lines = 0 then h.column - column else h.column
    lines :: columns :: h.length :: h.kind.index :: h.modifierBits :: encodeFrom h.line h.column hs

/-- The numbers of all colored names of a document. -/
def encode (hs : List Highlight) : List Nat := encodeFrom 0 0 hs

end Highlight

namespace Analysis

variable (a : Analysis)

/-- The color of the name at a place, if it has one. -/
def highlight? (place : Place) (t : Token) : Option Highlight :=
  if isStateDeclaration place then some ⟨t.line - 1, t.column, t.charLength, .type, true⟩
  else (a.referenceKind? place).map fun kind =>
    ⟨t.line - 1, t.column, t.charLength, .ofSymbolKind kind, false⟩

/-- The colored names of the document, in order. -/
def highlights : List Highlight :=
  a.identifiers.filterMap fun (place, t) => a.highlight? place t

end Analysis

end QuestScript
