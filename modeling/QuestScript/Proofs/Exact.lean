import QuestScript.Proofs.Ast.Derivation
import QuestScript.Proofs.Ast.Reading
import QuestScript.Proofs.Lossless

/-! # The parser accepts exactly its grammar

A document is parsed without errors exactly if the kinds of its significant tokens are derivable in
the grammar of its flavor, and its tree is then the only derivation tree of them (`parse_exact`). In
between stand abstract quests: a document without syntax errors is a quest (`exists_quest`), and the
tokens of a quest are parsed as its tree (`eq_of_tokens_eq`). -/

namespace QuestScript

open Ast

/-! ### Derivations skip no token -/

theorem Tree.IsDerivation.kind_ne_error {flavor : Flavor} {t : Tree} (h : t.IsDerivation flavor) :
    t.isNode .error = false := by
  cases h with
  | token t => rfl
  | @node n cs hcs _ =>
    suffices n ≠ .error by simpa [isNode, kind] using this
    rintro rfl
    have hzero : production flavor .error = 0 := by cases flavor <;> rfl
    rw [hzero] at hcs
    exact Language.notMem_zero _ hcs

theorem Tree.IsDerivation.subtrees_ne_error {flavor : Flavor} {t : Tree} (h : t.IsDerivation flavor) :
    ∀ u ∈ t.subtrees, u.isNode .error = false :=
  fun u hu => (h.subtrees u hu).kind_ne_error

theorem Ast.Quest.derives {flavor : Flavor} (q : Quest Word flavor) :
    Derives flavor (.node .file) (q.tokens.map (·.kind)) := by
  have hrun := reads_quest q [.file]
  have htree := Grammar.isDerivation_of_errors_eq_nil (congrArg Outcome.errors hrun)
  rw [hrun] at htree
  have hderives := htree.derives
  rw [← Quest.leaves_toTree]
  exact hderives

namespace Parse
variable {flavor : Flavor} {source : String}

/-- **A document without syntax errors is a quest.** -/
theorem exists_quest (h : (parse flavor source).errors = []) :
    ∃ q : Quest Word flavor, (parse flavor source).tree = q.toTree ∧
      (parse flavor source).stream.significant = q.tokens := by
  obtain ⟨q, hq⟩ := Ast.exists_quest (Grammar.isDerivation_of_errors_eq_nil h) rfl
  refine ⟨q, hq.symm, ?_⟩
  rw [← Quest.leaves_toTree, hq]
  exact (leaves_tree flavor source).symm

/-- **A document whose significant tokens are those of a quest is parsed as the quest.** -/
theorem eq_of_tokens_eq {q : Quest Word flavor}
    (h : (parse flavor source).stream.significant = q.tokens) :
    (parse flavor source).errors = [] ∧ (parse flavor source).tree = q.toTree := by
  have hrun : (Grammar.blocks flavor).run [.file] (parse flavor source).stream.significant =
      ⟨q.blocks.map Block.toTree, [], []⟩ := by
    rw [h]
    exact reads_quest q [.file]
  exact ⟨congrArg Outcome.errors hrun, congrArg (fun o : Outcome => Tree.node .file o.trees) hrun⟩

theorem eq_of_isDerivation {t : Tree} (ht : t.IsDerivation flavor) (hfile : t.kind = .node .file)
    (hleaves : t.leaves = (parse flavor source).stream.significant) :
    (parse flavor source).errors = [] ∧ (parse flavor source).tree = t := by
  obtain ⟨q, rfl⟩ := Ast.exists_quest ht hfile
  rw [Quest.leaves_toTree] at hleaves
  exact eq_of_tokens_eq hleaves.symm

variable (flavor source)

theorem errors_eq_nil_iff : (parse flavor source).errors = [] ↔
    Derives flavor (.node .file) ((parse flavor source).stream.significant.map (·.kind)) := by
  constructor
  · intro h
    have hderives := (Grammar.isDerivation_of_errors_eq_nil h).derives
    rw [Tree.leaves_node, leavesOf_blocks] at hderives
    exact hderives
  · intro h
    obtain ⟨t, ht, hfile, hleaves⟩ := h.exists_tree rfl
    exact (eq_of_isDerivation ht hfile hleaves).1

/-- **The parser accepts exactly the grammar of the flavor.** It records no error exactly if the
kinds of the significant tokens are derivable from a file; then, apart from hidden tokens, the tree
of the document has no skipped token and is the one derivation tree of these tokens. -/
theorem parse_exact :
    ((parse flavor source).errors = [] ↔
      Derives flavor (.node .file) ((parse flavor source).stream.significant.map (·.kind))) ∧
    ((parse flavor source).errors = [] →
      (∀ t ∈ (parse flavor source).fullTree.withoutHidden.subtrees, t.isNode .error = false) ∧
      (parse flavor source).fullTree.withoutHidden.IsDerivation flavor ∧
      (parse flavor source).fullTree.withoutHidden.kind = .node .file ∧
      (parse flavor source).fullTree.withoutHidden.leaves =
        (parse flavor source).stream.significant ∧
      ∀ t : Tree, t.IsDerivation flavor → t.kind = .node .file →
        t.leaves = (parse flavor source).stream.significant →
        t = (parse flavor source).fullTree.withoutHidden) := by
  refine ⟨errors_eq_nil_iff flavor source, fun h => ?_⟩
  rw [withoutHidden_fullTree]
  have htree : (parse flavor source).tree.IsDerivation flavor :=
    Grammar.isDerivation_of_errors_eq_nil h
  refine ⟨htree.subtrees_ne_error, htree, rfl, leaves_tree flavor source, ?_⟩
  intro t ht hfile hleaves
  exact (eq_of_isDerivation ht hfile hleaves).2.symm

end Parse

end QuestScript
