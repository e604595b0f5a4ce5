import QuestScript.Editor.Analysis

/-! # Code actions

The quick fixes that an editor offers for a stretch of text: those of every diagnostic that shares a
position with it. -/

namespace QuestScript

/-- A fix on offer. -/
structure CodeAction where
  /-- The diagnostic that the fix puts right. -/
  diagnostic : Diagnostic
  /-- The fix. -/
  fix : QuickFix
deriving DecidableEq, Repr

namespace Analysis

/-- The fixes on offer for a stretch of text. -/
def codeActions (a : Analysis) (range : Span) (casings : List String) : List CodeAction :=
  ((a.diagnostics casings).filter (·.range.touches range)).flatMap fun d =>
    d.fixes.toList.map (⟨d, ·⟩)

end Analysis

end QuestScript
