import QuestScript.Proofs.Check.Blocks
import QuestScript.Proofs.Fix.Cut
import QuestScript.Proofs.Fix.NewBlock
import QuestScript.Proofs.Layout.Grammar

/-! # Putting in a main block

The fix for a missing main block puts one before the first token, whatever hidden text, indentation or
errors surround it. The keyword of the block is then the first token (`TokenStream.exists_main_ahead`),
so the document has a main block (`Parse.nodes_mainBlock_of_ahead`). -/

namespace QuestScript

open Lexeme

/-- **After the fix the document starts with the keyword of a main block.** -/
theorem TokenStream.exists_main_ahead {flavor : Flavor} {source : String} {c : Checker} {t : Token}
    (hc : c.parse.stream = ofSource flavor source)
    (ht : (ofSource flavor source).firstMeaningful? = some t) :
    ∃ m after, (ofSource flavor (TextEdit.applyAll source (c.addMain t).edits)).significant =
      m :: after ∧ m.kind = .keyword .main := by
  obtain ⟨vs, hvs⟩ := List.head?_eq_some_iff.mp ht
  obtain ⟨as, bs, hsource, has, -, hspan, htake⟩ := exists_lexeme (show _ = [] ++ t :: vs from hvs)
  have hmem : t ∈ (ofSource flavor source).significant := by simp [hvs]
  have hhidden := isHidden_of_mem hmem
  have hindent : c.indentBefore t ≤ ((chars as).reverse.takeWhile isIndent).length := by
    unfold Checker.indentBefore
    rw [hc, htake]
    exact Nat.min_le_left _ _
  obtain ⟨p, w, hp, hw, hposition⟩ := Position.exists_indent hindent
  obtain ⟨ps, hps, hcut⟩ := exists_cut_before hsource hhidden (significant_eq_nil_iff.mp has) hp hw
  have htext : source.toList = p ++ ([] ++ (w ++ chars (t.lexeme :: bs))) := by
    rw [List.nil_append, ← List.append_assoc, ← hp, ← chars_append, ← hsource, chars_ofText]
  have hrange : (TextEdit.insert ⟨t.span.start.line, t.span.start.column - c.indentBefore t⟩
      "main\n\x7b\n\n\x7d\n\n").range = ⟨Position.after p, Position.after (p ++ [])⟩ := by
    rw [TextEdit.insert, List.append_nil, hposition, hspan]
  have hnew : (TextEdit.applyAll source (c.addMain t).edits).toList =
      p ++ ("main".toList ++ ("\n\x7b\n\n\x7d\n\n".toList ++ (w ++ chars (t.lexeme :: bs)))) := by
    refine (TextEdit.toList_applyAll htext hrange).trans ?_
    simp [TextEdit.insert]
  have hmain : Ends flavor ⟨.keyword .main, "main".toList⟩
      ("\n\x7b\n\n\x7d\n\n".toList ++ (w ++ chars (t.lexeme :: bs))) := by
    rw [← wordKind_main flavor]
    refine (isWhole_word (isWordText_spelling .main)).ends (wordKind_ne_unknown flavor _) ?_
    refine (closes_word (isWord_wordKind flavor _)).mpr ?_
    rintro d ⟨⟩
    decide
  have hlexemes := map_lexeme_significant flavor (TextEdit.applyAll source (c.addMain t).edits)
  rw [hnew, hcut _ 'm' rfl (by decide), hmain.ofText_append, significant_append,
    significant_eq_nil_iff.mpr hps, List.nil_append, significant_cons_of_visible rfl] at hlexemes
  obtain ⟨m, after, hafter, hm, -⟩ := List.map_eq_cons_iff.mp hlexemes
  exact ⟨m, after, hafter, congrArg Lexeme.kind hm⟩

/-! ### Documents -/

namespace Parse

theorem nodes_mainBlock_of_ahead {flavor : Flavor} {source : String} {m : Token} {after : List Token}
    (h : (TokenStream.ofSource flavor source).significant = m :: after) (hm : m.kind = .keyword .main) :
    (parse flavor source).tree.nodes .mainBlock ≠ [] := by
  have hblock : (Grammar.blocks flavor).run [.file] (m :: after) = _ :=
    Grammar.run_item (show Grammar.block? flavor m.kind = some (.node .block Grammar.mainBlock) by
      rw [hm]; rfl)
  simp only [parse, h, hblock, Tree.nodes_node, Tree.nodesOf_append]
  simp [Grammar.node, Grammar.mainBlock, Tree.nodes_node]

end Parse

end QuestScript
