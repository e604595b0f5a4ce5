import QuestScript.Diagnostic.Semantic
import QuestScript.Diagnostic.Syntactic

/-! # The diagnostics of a document

What the user is told about a document: first the findings of the lexer and the parser in the order
of the text, then the semantic findings in the order of the walk. -/

namespace QuestScript

namespace Parse

/-- All findings of a document: those of the lexer and the parser, then the semantic ones. -/
def findings (p : Parse) (casings : List String) : List Finding :=
  p.syntaxFindings ++ (p.check casings).findings

/-- What the user is told about a document. -/
def diagnostics (p : Parse) (casings : List String) : List Diagnostic :=
  (p.findings casings).map Finding.toDiagnostic

end Parse

/-- What the user is told about a source text. -/
def analyze (flavor : Flavor) (source : String) (casings : List String) : List Diagnostic :=
  (parse flavor source).diagnostics casings

end QuestScript
