import QuestScript.AnalysisError
import QuestScript.Diagnostic.Problem

/-! # Reports

The outcome of checks made one after another: the findings so far and, if a check could not be made,
the error that ended the analysis. Nothing is reported after such an error. -/

namespace QuestScript

/-- What checks have found. -/
structure Report where
  /-- The findings in the order in which they were made. -/
  findings : List Finding
  /-- Why the analysis ended early, if it did. -/
  aborted : Option AnalysisError
deriving DecidableEq, Repr

namespace Report

/-- A check without findings. -/
def nothing : Report := ⟨[], none⟩

/-- The outcome of a check that needs to know its way around the document. -/
def of : Except AnalysisError (List Finding) → Report
  | .ok findings => ⟨findings, none⟩
  | .error e => ⟨[], some e⟩

/-- One check, then another unless the first ended the analysis. -/
def andThen (a b : Report) : Report :=
  match a.aborted with
  | some _ => a
  | none => ⟨a.findings ++ b.findings, b.aborted⟩

/-- Checks made one after another. -/
def all : List Report → Report
  | [] => nothing
  | r :: rs => r.andThen (all rs)

end Report

end QuestScript
