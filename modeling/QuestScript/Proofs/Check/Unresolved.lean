import QuestScript.Editor.Analysis
import QuestScript.Proofs.Check.Complete
import QuestScript.Proofs.Check.Inversion
import QuestScript.Proofs.Reference

/-! # Names that are not found

Only the check of a reference says that a name is not found, and the name is the text of the token at
its place (`Checker.Finds.of_unresolved`). So a document is told so about its names only, apart from what
has taken the place of a name in an official statement (`Analysis.reference_is_name`). -/

namespace QuestScript

/-! ### The walk -/

namespace Checker
variable {c : Checker} {p : Place} {f : Finding}

theorem Finds.of_unresolved (h : c.Finds p f) {kind : SymbolKind} {name : String}
    {suggestion : Option String} (hf : f.problem = .unresolved kind name suggestion) :
    ∃ t, p.focus = .token t ∧ name = t.text ∧ classify c.parse.flavor p = some kind ∧
      c.parse.spanOf p.focus = .ok f.range := by
  cases h with
  | unresolved focus reference range_eq =>
    cases hf
    exact ⟨_, focus, rfl, reference, range_eq⟩
  | undeclared focus reference range_eq =>
    cases hf
    exact ⟨_, focus, rfl, reference, range_eq⟩
  | _ => cases hf

theorem of_mem_checkPlaces_unresolved {kind : SymbolKind} {name : String}
    {suggestion : Option String} {ps : List Place} {seen : Bool}
    (h : f ∈ (c.checkPlaces seen ps).findings) (hf : f.problem = .unresolved kind name suggestion) :
    ∃ p ∈ ps, ∃ t, p.focus = .token t ∧ name = t.text ∧ classify c.parse.flavor p = some kind ∧
      c.parse.spanOf p.focus = .ok f.range := by
  rcases of_mem_checkPlaces h with ⟨p, hp, hfound⟩ | ⟨t, -, rfl⟩
  · exact ⟨p, hp, hfound.of_unresolved hf⟩
  · cases hf

end Checker

/-! ### Documents -/

theorem Parse.problem_ne_of_mem_syntaxFindings {p : Parse} {f : Finding} {kind : SymbolKind}
    {name : String} {suggestion : Option String} (h : f ∈ p.syntaxFindings) :
    f.problem ≠ .unresolved kind name suggestion := by
  intro hf
  have hsyntactic := isSyntactic_of_mem_syntaxFindings h
  rw [hf] at hsyntactic
  cases hsyntactic

namespace Analysis

/-- **References are names**, apart from what has taken the place of a name in an official statement
with an error: an argument list, a `goto`, a semicolon or a skipped token. Elsewhere it makes no
difference whether a reference is asked to be a name, and what is not found is a name. -/
theorem reference_is_name (flavor : Flavor) (source : String) (casings : List String) :
    let a := ofSource flavor source
    let slips (k : Kind) : Prop := flavor = .official ∧ a.parse.errors ≠ [] ∧ k ∈ Kind.slips
    (∀ root ∈ [a.parse.tree, a.parse.fullTree], ∀ q ∈ (Place.root root).descendants,
      (∀ k, classify flavor q = some k → q.focus.kind = .token .identifier ∨ slips q.focus.kind) ∧
      (a.referenceKind? q = classify flavor q ∨ slips q.focus.kind)) ∧
    ∀ f ∈ a.parse.findings casings, ∀ kind name suggestion,
      f.problem = .unresolved kind name suggestion →
        ∃ t ∈ a.parse.stream.significant, name = t.text ∧ f.range = t.span ∧
          (t.kind = .identifier ∨ slips (.token t.kind)) := by
  intro a slips
  have hkind : ∀ root ∈ [a.parse.tree, a.parse.fullTree], ∀ q ∈ (Place.root root).descendants,
      ∀ k, classify flavor q = some k → q.focus.kind = .token .identifier ∨ slips q.focus.kind := by
    intro root hroot q hq k hk
    obtain ⟨hlenient, hstrict⟩ := Parse.spells_of_mem flavor source rfl hroot
    have hq := Place.isIn_of_mem_descendants hq
    refine (kind_of_classify hlenient hq hk).elim .inl fun ⟨hofficial, hslips⟩ => ?_
    subst hofficial
    by_cases herrors : a.parse.errors = []
    · exact .inl (kind_of_classify_strict (hstrict herrors) hq hk)
    · exact .inr ⟨rfl, herrors, hslips⟩
  refine ⟨fun root hroot q hq => ⟨hkind root hroot q hq, ?_⟩, ?_⟩
  · unfold referenceKind?
    split
    · exact .inl rfl
    · rename_i hname
      cases hk : classify flavor q with
      | none => exact .inl rfl
      | some k =>
        refine .inr ((hkind root hroot q hq k hk).resolve_left fun h => hname ?_)
        rw [Tree.isToken, h]
        rfl
  · intro f hf kind name suggestion hproblem
    rcases List.mem_append.mp hf with hf | hf
    · exact absurd hproblem (Parse.problem_ne_of_mem_syntaxFindings hf)
    · obtain ⟨q, hq, t, ht, hname, hk, hrange⟩ := Checker.of_mem_checkPlaces_unresolved hf hproblem
      have hq := (List.mem_filter.mp hq).1
      have hfocus := (Place.isIn_of_mem_descendants hq).focus
      have hmem : t ∈ a.parse.stream.significant :=
        (Parse.leaves_sublist_significant flavor source hfocus).subset (by simp [ht])
      have hspan := (Checker.knows_of_mem (c := a.parse.checker casings) rfl hmem).spanOf
      rw [ht] at hrange
      have hkinds := hkind _ List.mem_cons_self q hq kind hk
      rw [ht] at hkinds
      refine ⟨t, hmem, hname, Except.ok.inj (hrange.symm.trans hspan), ?_⟩
      exact hkinds.imp_left Kind.token.inj

/-- The semicolon of an action without a name counts as the name of an action. -/
theorem classify_semicolon :
    ∃ q ∈ (Place.root (QuestScript.parse .official "state B \x7b action ; \x7d").tree).descendants,
      q.focus.kind = .token .semicolon ∧ classify .official q = some .action ∧
        (ofSource .official "state B \x7b action ; \x7d").referenceKind? q = none := by
  decide +kernel

end Analysis

end QuestScript
