import QuestScript.Text.Edit

/-! # Diagnostics

A diagnostic tells the user about a stretch of text that is wrong or doubtful, and may offer fixes.
An editor may apply a preferred fix without asking. -/

namespace QuestScript

/-- How bad a finding is. -/
inductive Severity
  | error | warning
deriving DecidableEq, Repr

namespace Severity

/-- Every severity. -/
def all : List Severity := [error, warning]

/-- The name of the severity. -/
def name : Severity → String
  | error => "Error"
  | warning => "Warning"

/-- The number by which editors know the severity. -/
def code : Severity → Nat
  | error => 1
  | warning => 2

end Severity

/-- Edits that put one diagnostic right. -/
structure QuickFix where
  /-- What the fix does. -/
  title : String
  /-- The edits to apply. -/
  edits : List TextEdit
  /-- The fix may be applied without asking. -/
  isPreferred : Bool
deriving DecidableEq, Repr

/-- The fixes that a diagnostic offers. -/
inductive QuickFixes
  | none
  | single (fix : QuickFix)
  | multiple (fixes : List QuickFix)
deriving DecidableEq, Repr

namespace QuickFixes

/-- The fixes in a list. -/
def ofList : List QuickFix → QuickFixes
  | [] => none
  | [fix] => single fix
  | fixes => multiple fixes

/-- The fixes in order. -/
def toList : QuickFixes → List QuickFix
  | none => []
  | single fix => [fix]
  | multiple fixes => fixes

/-- The name of the form. -/
def name : QuickFixes → String
  | none => "NoFix"
  | single _ => "SingleFix"
  | multiple _ => "MultipleFixes"

/-- The diagnostic offers no fix. -/
def isNone : QuickFixes → Bool
  | none => true
  | _ => false

/-- The first fix that may be applied without asking. -/
def preferred? (f : QuickFixes) : Option QuickFix := f.toList.find? (·.isPreferred)

@[simp] theorem toList_ofList (fixes : List QuickFix) : (ofList fixes).toList = fixes := by
  match fixes with
  | [] => rfl
  | [_] => rfl
  | _ :: _ :: _ => rfl

end QuickFixes

/-- What the user is told about a stretch of text. -/
structure Diagnostic where
  /-- The stretch of text. -/
  range : Span
  /-- How bad it is. -/
  severity : Severity
  /-- What is wrong. -/
  message : String
  /-- How it can be put right. -/
  fixes : QuickFixes
deriving DecidableEq, Repr

namespace Diagnostic

/-- The name under which diagnostics appear in an editor. -/
def source : String := "eo+"

end Diagnostic

end QuestScript
