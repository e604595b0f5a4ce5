import Mathlib.Algebra.GroupWithZero.Nat
import QuestScript.Parse
import QuestScript.Proofs.Token.Place
import QuestScript.Proofs.Tree.Hidden
import QuestScript.Proofs.Tree.Nested

/-! # Parsing loses nothing

Whatever a document looks like, the leaves of its full tree are the tokens of its stream up to the
end (`leaves_fullTree`), so the tree spells the document, and every leaf is found again in the stream
by its offset (`parse_lossless`). -/

namespace QuestScript

/-! ### The blocks of a file take every token -/

namespace Grammar.Items

theorem rest_eq_nil {s : Items} (h : ∀ k, s.isClosing k = false) (rules : List NodeKind)
    (ahead : List Token) : (s.run rules ahead).rest = [] := by
  fun_induction s.run rules ahead with
  | case1 => rfl
  | case2 t others g hg a b ih => exact ih
  | case3 t others hi hc => rw [h] at hc; simp at hc
  | case4 t others hi hc stray b ih => exact ih

end Grammar.Items

theorem leavesOf_blocks (flavor : Flavor) (rules : List NodeKind) (ahead : List Token) :
    Tree.leavesOf ((Grammar.blocks flavor).run rules ahead).trees = ahead := by
  have hrest : ((Grammar.blocks flavor).run rules ahead).rest = [] :=
    Grammar.Items.rest_eq_nil (fun _ => rfl) rules ahead
  have h := (Grammar.blocks flavor).lossless rules ahead
  rwa [hrest, List.append_nil] at h

/-! ### The trees of a document -/

namespace Parse
variable (flavor : Flavor) (source : String)

theorem leaves_tree : (parse flavor source).tree.leaves = (parse flavor source).stream.significant := by
  rw [parse, Tree.leaves_node]
  exact leavesOf_blocks flavor _ _

theorem leaves_sublist_significant {t : Tree} (ht : t ∈ (parse flavor source).tree.subtrees) :
    t.leaves.Sublist (parse flavor source).stream.significant := by
  rw [← leaves_tree]
  exact Tree.leaves_sublist _ ht

/-- **The leaves of the full tree are the tokens of the document.** -/
theorem leaves_fullTree :
    (parse flavor source).fullTree.leaves = (parse flavor source).stream.document :=
  Tree.leaves_weaveFile (leavesOf_blocks flavor _ _).symm

/-- **Without its hidden tokens the full tree is the tree of the significant tokens.** -/
theorem withoutHidden_fullTree :
    (parse flavor source).fullTree.withoutHidden = (parse flavor source).tree :=
  Tree.withoutHidden_weaveFile (leavesOf_blocks flavor _ _).symm

theorem locate_of_mem_document {s : Token} (hs : s ∈ (parse flavor source).stream.document) :
    (parse flavor source).locate s = .ok s := by
  have hfound : (parse flavor source).tokenOf? s = some s :=
    TokenStream.atOffset?_offset (TokenStream.mem_tokens_of_mem_document hs)
  rw [locate, hfound]

theorem offset_leaf {before after : List Token} {t : Token}
    (h : (parse flavor source).fullTree.leaves = before ++ t :: after) :
    t.offset = (before.map fun u => byteLength u.text.toList).sum := by
  rw [leaves_fullTree] at h
  have h' : TokenStream.placed .start 0 (Lexeme.ofText flavor source.toList) =
      before ++ t :: after := by
    rw [← TokenStream.document_ofSource]; exact h
  obtain ⟨ls₁, l, ls₂, -, rfl, rfl⟩ := TokenStream.placed_eq_append h'
  have hsum : ((TokenStream.placed .start 0 ls₁).map fun u => byteLength u.text.toList) =
      ls₁.map fun l => byteLength l.text := by
    conv_rhs => rw [← TokenStream.map_placed .start 0 ls₁, List.map_map]
    rfl
  rw [hsum]
  have hlength : ∀ ls : List Lexeme,
      byteLength (ls.flatMap Lexeme.text) = (ls.map fun l => byteLength l.text).sum := by
    intro ls
    induction ls with
    | nil => rfl
    | cons l ls ih => rw [List.flatMap_cons, byteLength_append, ih, List.map_cons, List.sum_cons]
  show (Cursor.start.advance _).offset = _
  rw [Cursor.offset_advance, hlength]
  exact Nat.zero_add _

/-- **Parsing is lossless.** The leaves of the full tree are the tokens of the stream but the one
that marks the end, so they spell the document; each starts at its offset, and the stream has no
other token there, so it is the one found for the leaf. -/
theorem parse_lossless :
    (parse flavor source).fullTree.leaves = (parse flavor source).stream.tokens.dropLast ∧
      (∀ t ∈ (parse flavor source).stream.tokens.getLast?, t.isEnd = true) ∧
      String.join ((parse flavor source).fullTree.leaves.map (·.text)) = source ∧
      (∀ before t after, (parse flavor source).fullTree.leaves = before ++ t :: after →
        t.offset = (before.map fun u => byteLength u.text.toList).sum) ∧
      (parse flavor source).stream.tokens.Pairwise (·.offset < ·.offset) ∧
      ∀ t ∈ (parse flavor source).fullTree.leaves,
        (parse flavor source).tokenOf? t = some t ∧
          ∀ u ∈ (parse flavor source).stream.tokens, u.offset = t.offset → u = t := by
  have hleaves := leaves_fullTree flavor source
  have hstream : (parse flavor source).stream = TokenStream.ofSource flavor source := rfl
  refine ⟨?_, ?_, ?_, fun _ _ _ => offset_leaf flavor source, ?_, fun t ht => ?_⟩
  · rw [hleaves, hstream, TokenStream.document_eq_dropLast]
  · rw [hstream, TokenStream.tokens_eq_document_append, List.getLast?_concat]
    intro t ht
    cases ht
    rfl
  · rw [hleaves, hstream]
    exact TokenStream.map_text_document
  · exact TokenStream.pairwise_offset_tokens flavor source
  · rw [hleaves] at ht
    have ht := TokenStream.mem_tokens_of_mem_document ht
    exact ⟨TokenStream.atOffset?_offset ht, fun u hu h => TokenStream.eq_of_offset_eq hu ht h⟩

end Parse

end QuestScript
