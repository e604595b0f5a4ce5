import QuestScript.Proofs.Fix.Blocks

/-! # Quick fixes make progress

Each fix of a finding improves on what is found (`fixes_site`): applied to a clean document, it gives
a clean document that has fewer findings of the defect (`clean_and_fewer_of_fix`). -/

namespace QuestScript

open Ast

section Findings
variable {flavor : Flavor} {source : String} {q : Quest Word flavor} {casings : List String}
  {f : Finding} {fix : QuickFix}

/-- The fix of a finding improves on what is found. -/
def Fixes (flavor : Flavor) (source : String) (casings : List String) (f : Finding)
    (fix : QuickFix) : Prop :=
  ∃ d, f.problem.defect? = some d ∧ d.Improves flavor source casings fix.edits

theorem fixes_unresolved (h : Parse.Reads flavor source q) {kind : SymbolKind}
    {name : Word .identifier} {arguments : Option (ArgumentList Word)} {stop : Position}
    (hs : .reference kind name arguments stop ∈ q.sites)
    (hlookup : ((parse flavor source).checker casings).catalog.lookup? kind name.1.text = none)
    (hfix : fix ∈
      (((parse flavor source).checker casings).unresolvedFinding kind name.1 stop).fixes) :
    Fixes flavor source casings
      (((parse flavor source).checker casings).unresolvedFinding kind name.1 stop) fix := by
  have hl : (.refers kind name : Leaf Word) ∈ q.leaves := q.leaf_mem hs rfl
  refine ⟨.unresolved, rfl, ?_⟩
  rcases List.mem_append.mp hfix with hfix | hfix
  · obtain ⟨other, hother, rfl⟩ := Option.map_eq_some_iff.mp (Option.mem_toList.mp hfix)
    exact improves_suggestion h hl hlookup hother
  · by_cases hkind : kind = .state
    · subst hkind
      obtain ⟨as, x, bs, hblocks, rfl⟩ := Quest.exists_state_around hs
      rw [List.mem_singleton.mp hfix]
      exact improves_declare h hblocks hl hlookup _
    · rw [if_neg hkind] at hfix
      cases hfix

theorem fixes_reference (h : Parse.Reads flavor source q) {kind : SymbolKind}
    {name : Word .identifier} {arguments : Option (ArgumentList Word)} {stop : Position}
    (hs : .reference kind name arguments stop ∈ q.sites)
    (hf : f ∈ ((parse flavor source).checker casings).referenceFindings kind name.1 arguments stop)
    (hfix : fix ∈ f.fixes) : Fixes flavor source casings f fix := by
  cases hlookup : ((parse flavor source).checker casings).catalog.lookup? kind name.1.text with
  | none =>
    rw [Checker.referenceFindings, hlookup, List.mem_singleton] at hf
    subst hf
    exact fixes_unresolved h hs hlookup hfix
  | some symbol =>
    obtain ⟨fs, hfs, hnone⟩ := referenceFindings_eq_append arguments stop hlookup
    rw [hfs, List.mem_append] at hf
    rcases hf with hf | hf
    · rw [(hnone f hf).2] at hfix
      cases hfix
    · unfold Checker.casingFindings at hf
      split at hf
      · cases hf
      · rename_i hne
        rw [List.mem_singleton] at hf
        subst hf
        rw [List.mem_singleton.mp hfix]
        exact ⟨.referenceCasing, rfl, improves_casing h (q.leaf_mem hs rfl) hlookup hne⟩

theorem fixes_main (h : Parse.Reads flavor source q) {seen : Bool} {x : MainBlock Word}
    (hs : .main seen x ∈ q.sites) (hf : f ∈ Checker.mainFindings seen x) (hfix : fix ∈ f.fixes) :
    Fixes flavor source casings f fix := by
  obtain ⟨as, bs, hblocks, hseen⟩ := Quest.exists_main hs
  rcases List.mem_append.mp hf with hf | hf
  · cases seen with
    | false => cases hf
    | true =>
      rw [if_pos rfl, List.mem_singleton] at hf
      subst hf
      rw [List.mem_singleton.mp hfix]
      exact ⟨.duplicateMain, rfl, improves_duplicateMain h hblocks (hseen rfl)⟩
  · obtain ⟨y, hy, rfl⟩ := List.mem_map.mp hf
    rw [List.mem_singleton.mp hfix]
    exact ⟨.duplicateAttribute, rfl, improves_duplicateAttribute h hblocks hy⟩

theorem fixes_state (h : Parse.Reads flavor source q) {x : StateBlock Word flavor}
    (hs : .state x ∈ q.sites)
    (hf : f ∈ ((parse flavor source).checker casings).stateFindings x) (hfix : fix ∈ f.fixes) :
    Fixes flavor source casings f fix := by
  obtain ⟨as, bs, hblocks⟩ := Quest.exists_state hs
  rcases List.mem_append.mp hf with hf | hf
  · unfold Checker.stateNameFindings at hf
    split at hf
    · split at hf
      · cases hf
      · rw [List.mem_singleton.mp hf] at hfix
        cases hfix
    · cases hf
  · obtain ⟨y, hy, rfl⟩ := List.mem_map.mp hf
    rw [List.mem_singleton.mp hfix]
    exact ⟨.duplicateDescription, rfl, improves_duplicateDescription h hblocks hy⟩

theorem fixes_site (h : Parse.Reads flavor source q) {s : Site flavor} (hs : s ∈ q.sites)
    (hf : f ∈ s.findings ((parse flavor source).checker casings)) (hfix : fix ∈ f.fixes) :
    Fixes flavor source casings f fix := by
  cases s with
  | word l =>
    obtain ⟨m, hm, -, htoken⟩ := Site.exists_leaf_word flavor l
    have hl : f ∈ ((parse flavor source).checker casings).keywordFindings m.token := by
      rw [htoken]
      exact hf
    exact ⟨.keywordCasing, improves_keyword h (q.leaf_mem hs hm) hl hfix⟩
  | reference kind name arguments stop => exact fixes_reference h hs hf hfix
  | gotoCondition x =>
    rw [List.mem_singleton.mp hf] at hfix
    cases hfix
  | main seen x => exact fixes_main h hs hf hfix
  | state x => exact fixes_state h hs hf hfix

end Findings

/-- **Quick fixes make progress.** The fixes of a clean document put one of seven defects right:
with the edits of the fix, the document is clean again and has fewer findings of that defect. -/
theorem clean_and_fewer_of_fix (flavor : Flavor) (source : String) (casings : List String)
    (hclean : (parse flavor source).isClean = true) (f : Finding)
    (hf : f ∈ (parse flavor source).findings casings) (fix : QuickFix)
    (hfix : fix ∈ f.toDiagnostic.fixes.toList) :
    ∃ d, f.problem.defect? = some d ∧
      (parse flavor (TextEdit.applyAll source fix.edits)).isClean = true ∧
      d.countIn ((parse flavor (TextEdit.applyAll source fix.edits)).findings casings) <
        d.countIn ((parse flavor source).findings casings) := by
  rw [Finding.toDiagnostic, QuickFixes.toList_ofList] at hfix
  obtain ⟨q, h⟩ := Parse.exists_reads hclean
  rw [h.findings_eq, Quest.findings, List.mem_append] at hf
  rcases hf with hf | hf
  · obtain ⟨s, hs, hf⟩ := List.mem_flatMap.mp hf
    exact fixes_site h hs hf hfix
  · by_cases hmains : q.mains = []
    · rw [if_pos hmains] at hf
      rcases Checker.checkMainExists_eq (h.isFor casings) hmains with
        ⟨-, hfound⟩ | ⟨t, ts, htokens, hk, hfound⟩
      · rw [hfound] at hf
        cases hf
      · rw [hfound, List.mem_singleton] at hf
        subst hf
        exact ⟨.missingMain, rfl, improves_missingMain h hmains htokens hk hfix⟩
    · rw [if_neg hmains] at hf
      cases hf

/-- The finding for the keyword of an empty main block, written in capitals. -/
def loudMain : Finding :=
  ⟨⟨⟨0, 0⟩, ⟨0, 4⟩⟩, .keywordCasing "MAIN",
    [Checker.respell "Change casing to 'main'" "main" ⟨⟨0, 0⟩, ⟨0, 4⟩⟩]⟩

/-- The fix of a keyword in capitals makes progress. -/
theorem clean_and_fewer_of_loudMain :
    (parse .official "MAIN\x7b\x7d").isClean = true ∧
    loudMain ∈ (parse .official "MAIN\x7b\x7d").findings [] ∧
    ∃ fix ∈ loudMain.toDiagnostic.fixes.toList, ∃ d, loudMain.problem.defect? = some d ∧
      (parse .official (TextEdit.applyAll "MAIN\x7b\x7d" fix.edits)).isClean = true ∧
      d.countIn ((parse .official (TextEdit.applyAll "MAIN\x7b\x7d" fix.edits)).findings []) <
        d.countIn ((parse .official "MAIN\x7b\x7d").findings []) := by
  have hclean : (parse .official "MAIN\x7b\x7d").isClean = true := by decide +kernel
  have hmem : loudMain ∈ (parse .official "MAIN\x7b\x7d").findings [] := by decide +kernel
  refine ⟨hclean, hmem, _, List.mem_cons_self, ?_⟩
  exact clean_and_fewer_of_fix .official "MAIN\x7b\x7d" [] hclean loudMain hmem _ List.mem_cons_self

end QuestScript
