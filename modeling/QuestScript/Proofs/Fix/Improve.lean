import QuestScript.Proofs.Fix.Count
import QuestScript.Proofs.Fix.Front

/-! # Edits that improve a document

An edit of a clean document improves on a defect if the document is clean after it and the defect is
found less often (`Defect.Improves`). Both can be told from the significant lexemes after the edit
(`improves_of_spells`, `improves_of_quest`). -/

namespace QuestScript

open Ast Lexeme

/-! ### Clean documents -/

/-- The lexer knows all of the text, and its significant tokens are those of the quest. -/
structure Parse.Reads (flavor : Flavor) (source : String) (q : Quest Word flavor) : Prop where
  known : (TokenStream.ofSource flavor source).unknown = []
  significant : (TokenStream.ofSource flavor source).significant = q.tokens

namespace Parse
variable {flavor : Flavor} {source : String} {q : Quest Word flavor}

theorem exists_reads (h : (parse flavor source).isClean = true) : ∃ q, Reads flavor source q := by
  rw [isClean, Bool.and_eq_true, List.isEmpty_iff, List.isEmpty_iff] at h
  obtain ⟨q, -, htokens⟩ := exists_quest h.2
  exact ⟨q, h.1, htokens⟩

namespace Reads

theorem isClean (h : Reads flavor source q) : (parse flavor source).isClean = true := by
  rw [Parse.isClean, Bool.and_eq_true, List.isEmpty_iff, List.isEmpty_iff]
  exact ⟨h.known, (eq_of_tokens_eq h.significant).1⟩

theorem isFor (h : Reads flavor source q) (casings : List String) :
    ((parse flavor source).checker casings).IsFor q :=
  Parse.isFor (eq_of_tokens_eq h.significant).2 h.significant casings

theorem findings_eq (h : Reads flavor source q) (casings : List String) :
    (parse flavor source).findings casings =
      q.findings ((parse flavor source).checker casings) := by
  obtain ⟨herrors, htree⟩ := eq_of_tokens_eq h.significant
  have hsyntax := (syntaxFindings_eq_nil_iff flavor source).mpr ⟨h.known, herrors⟩
  rw [findings, hsyntax, check_eq herrors htree h.significant, List.nil_append]

theorem countIn (h : Reads flavor source q) (casings : List String) (d : Defect) :
    d.countIn ((parse flavor source).findings casings) = d.count flavor casings q.marks := by
  rw [h.findings_eq, Quest.countIn_findings (h.isFor casings)]
  rfl

end Reads

theorem exists_reads_of_spells {ls : List Lexeme}
    (h : (TokenStream.ofSource flavor source).Spells ls)
    (hkinds : q.tokens.map (·.kind) = ls.map (·.kind)) :
    ∃ q' : Quest Word flavor, Reads flavor source q' ∧ q'.marks = marks .rightBrace ls := by
  have hderives : Derives flavor (.node .file)
      ((parse flavor source).stream.significant.map (·.kind)) := by
    have hlexemes : (parse flavor source).stream.significant.map (·.kind) = ls.map (·.kind) := by
      rw [← h.2, List.map_map]
      rfl
    rw [hlexemes, ← hkinds]
    exact q.derives
  obtain ⟨q', -, htokens⟩ := exists_quest ((errors_eq_nil_iff flavor source).mpr hderives)
  refine ⟨q', ⟨h.1, htokens⟩, ?_⟩
  rw [q'.marks_eq, ← htokens]
  exact congrArg (marks .rightBrace) h.2

end Parse

/-! ### Progress -/

/-- With the edits, the document is clean and the defect is found less often. -/
def Defect.Improves (flavor : Flavor) (source : String) (casings : List String) (d : Defect)
    (edits : List TextEdit) : Prop :=
  (parse flavor (TextEdit.applyAll source edits)).isClean = true ∧
    d.countIn ((parse flavor (TextEdit.applyAll source edits)).findings casings) <
      d.countIn ((parse flavor source).findings casings)

section Progress
variable {flavor : Flavor} {source : String} {q : Quest Word flavor} {casings : List String}
  {d : Defect} {edits : List TextEdit}

theorem improves_of_spells (h : Parse.Reads flavor source q) {ls : List Lexeme}
    (hspells : (TokenStream.ofSource flavor (TextEdit.applyAll source edits)).Spells ls)
    (q' : Quest Word flavor) (hkinds : q'.tokens.map (·.kind) = ls.map (·.kind))
    (hcount : d.count flavor casings (marks .rightBrace ls) < d.count flavor casings q.marks) :
    d.Improves flavor source casings edits := by
  obtain ⟨p, hp, hmarks⟩ := Parse.exists_reads_of_spells hspells hkinds
  refine ⟨hp.isClean, ?_⟩
  rw [hp.countIn, h.countIn, hmarks]
  exact hcount

theorem improves_of_quest (h : Parse.Reads flavor source q) (q' : Quest Word flavor)
    (hspells : (TokenStream.ofSource flavor (TextEdit.applyAll source edits)).Spells
      (q'.tokens.map Token.lexeme))
    (hcount : d.count flavor casings q'.marks < d.count flavor casings q.marks) :
    d.Improves flavor source casings edits := by
  refine improves_of_spells h hspells q' ?_ ?_
  · rw [List.map_map]
    rfl
  · rw [← q'.marks_eq]
    exact hcount

end Progress

end QuestScript
