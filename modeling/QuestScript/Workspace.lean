import QuestScript.Editor.Analysis
import QuestScript.Settings

/-! # Workspaces

The open documents of an editor, in the order in which they were opened, each analyzed in the flavor
that the settings choose. -/

namespace QuestScript

/-- Open documents and the settings under which they are read. -/
structure Workspace where
  /-- The settings. -/
  settings : Settings
  /-- The open documents with their names, in the order in which they were opened. -/
  documents : List (String × Analysis)

namespace Workspace

/-- No open documents. -/
def empty (settings : Settings) : Workspace := ⟨settings, []⟩

variable (w : Workspace)

/-- The names of the open documents. -/
def files : List String := w.documents.map (·.1)

/-- The analysis of an open document. -/
def analysis? (uri : String) : Option Analysis := (w.documents.find? (·.1 == uri)).map (·.2)

/-- The document is open. -/
def has (uri : String) : Bool := w.documents.any (·.1 == uri)

/-- The document in another flavor. -/
def reread (flavor : Flavor) (document : String × Analysis) : String × Analysis :=
  (document.1, .ofSource flavor document.2.source)

/-- Other settings. If they choose another flavor, every document is read again. -/
def setSettings (settings : Settings) : Workspace :=
  if settings.flavor = w.settings.flavor then ⟨settings, w.documents⟩
  else ⟨settings, w.documents.map (reread settings.flavor)⟩

/-- Open a document, or give an open one another text. An open document keeps its position. -/
def openDocument (uri source : String) : Workspace :=
  let analysis := Analysis.ofSource w.settings.flavor source
  if w.has uri then
    ⟨w.settings, w.documents.map fun d => if d.1 = uri then (uri, analysis) else d⟩
  else ⟨w.settings, w.documents ++ [(uri, analysis)]⟩

/-- Close a document. -/
def close (uri : String) : Workspace := ⟨w.settings, w.documents.filter (·.1 != uri)⟩

/-- Close a document, and say whether it was open. -/
def remove (uri : String) : Bool × Workspace := (w.has uri, w.close uri)

/-- What the user is told about a document; nothing if it is not open. -/
def diagnostics (uri : String) : List Diagnostic :=
  match w.analysis? uri with
  | some a => a.diagnostics w.settings.alternateCasings
  | none => []

end Workspace

end QuestScript
