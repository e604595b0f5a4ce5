import QuestScript.Proofs.Lossless
import QuestScript.Proofs.Text.Simultaneous
import QuestScript.Proofs.Token.Span
import QuestScript.Proofs.Tree.Nested

/-! # The spans of a document

The lexer counts lines and columns while it reads, the editor finds them again by looking for line
breaks. Both agree (`positions_agree`): the span of a token that the grammar sees lies at its bytes, and
an edit of the span of a tree replaces just the bytes from its first to its last such token. -/

namespace QuestScript

/-! ### The first and the last token of a tree -/

theorem eq_or_of_head?_getLast? {α : Type} {R : α → α → Prop} {xs : List α} {a b : α}
    (h : xs.Pairwise R) (ha : xs.head? = some a) (hb : xs.getLast? = some b) : a = b ∨ R a b := by
  cases xs with
  | nil => cases ha
  | cons x xs =>
    obtain rfl := Option.some.inj ha
    rcases List.mem_cons.mp (List.mem_of_getLast? hb) with rfl | hmem
    · exact Or.inl rfl
    · exact Or.inr ((List.pairwise_cons.mp h).1 b hmem)

namespace Parse
variable {flavor : Flavor} {source : String} {root u : Tree} {first last : Token}

/-- One of the two trees of a document: that of the significant tokens or the full one. -/
def IsRoot (p : Parse) (root : Tree) : Prop := root = p.tree ∨ root = p.fullTree

theorem IsRoot.leaves_sublist (h : (parse flavor source).IsRoot root) :
    root.leaves.Sublist (parse flavor source).stream.document := by
  rcases h with rfl | rfl
  · rw [leaves_tree]
    exact List.filter_sublist
  · rw [leaves_fullTree]

theorem significantTokens_sublist (h : (parse flavor source).IsRoot root)
    (hu : u ∈ root.subtrees) :
    u.significantTokens.Sublist (parse flavor source).stream.significant :=
  ((Tree.leaves_sublist root hu).trans h.leaves_sublist).filter _

theorem pairwise_offset_significant (flavor : Flavor) (source : String) :
    (parse flavor source).stream.significant.Pairwise (·.offset < ·.offset) :=
  (TokenStream.pairwise_offset_tokens flavor source).sublist
    (List.filter_sublist.trans List.filter_sublist)

theorem locate_of_mem_significant {t : Token} (h : t ∈ (parse flavor source).stream.significant) :
    (parse flavor source).locate t = .ok t :=
  locate_of_mem_document flavor source (List.mem_filter.mp h).1

/-- Tokens of the document that the grammar sees cut the text where the first of them starts and the
last ends. -/
theorem exists_cut_of_sublist {ts : List Token}
    (hts : ts.Sublist (parse flavor source).stream.significant)
    (hfirst : ts.head? = some first) (hlast : ts.getLast? = some last) :
    ∃ pre mid post, source.toList = pre ++ (mid ++ post) ∧
      byteLength pre = first.offset ∧ byteLength (pre ++ mid) = last.endOffset ∧
      first.span.start = Position.after pre ∧ last.span.stop = Position.after (pre ++ mid) := by
  have hfirst_mem := hts.subset (List.mem_of_mem_head? hfirst)
  have hlast_mem := hts.subset (List.mem_of_getLast? hlast)
  refine TokenStream.exists_cut_between hfirst_mem hlast_mem ?_
  have hpairwise := (pairwise_offset_significant flavor source).sublist hts
  rcases eq_or_of_head?_getLast? hpairwise hfirst hlast with rfl | hlt
  · exact le_rfl
  · exact hlt.le

theorem bounds_eq_of_sublist
    (hu : u.significantTokens.Sublist (parse flavor source).stream.significant)
    (hfirst : u.significantTokens.head? = some first)
    (hlast : u.significantTokens.getLast? = some last) :
    (parse flavor source).bounds u = .ok (first, last) := by
  have hfirst_mem := hu.subset (List.mem_of_mem_head? hfirst)
  have hlast_mem := hu.subset (List.mem_of_getLast? hlast)
  rw [bounds, Tree.firstToken?_eq, Tree.lastToken?_eq, hfirst, hlast]
  simp only [locate_of_mem_significant hfirst_mem, locate_of_mem_significant hlast_mem]
  rfl

/-- **The span of a tree goes from its first to its last significant token.** -/
theorem spanOf_eq_of_sublist
    (hu : u.significantTokens.Sublist (parse flavor source).stream.significant)
    (hfirst : u.significantTokens.head? = some first)
    (hlast : u.significantTokens.getLast? = some last) :
    (parse flavor source).spanOf u = .ok ⟨first.span.start, last.span.stop⟩ := by
  rw [spanOf, bounds_eq_of_sublist hu hfirst hlast]
  rfl

/-- **Its indices are those of these two tokens.** -/
theorem tokenRange?_eq_of_sublist
    (hu : u.significantTokens.Sublist (parse flavor source).stream.significant)
    (hfirst : u.significantTokens.head? = some first)
    (hlast : u.significantTokens.getLast? = some last) :
    (parse flavor source).tokenRange? u = some (first.index, last.index) := by
  rw [tokenRange?, bounds_eq_of_sublist hu hfirst hlast]
  rfl

theorem tokenRange?_eq_none (p : Parse) (h : u.significantTokens = []) : p.tokenRange? u = none := by
  rw [tokenRange?, bounds, Tree.firstToken?_eq, h]
  rfl

theorem exists_of_spanOf {p : Parse} {range : Span} (h : p.spanOf u = .ok range) :
    ∃ first last, u.significantTokens.head? = some first ∧
      u.significantTokens.getLast? = some last := by
  rcases eq_or_ne u.significantTokens [] with hnil | hne
  · rw [spanOf, bounds, Tree.firstToken?_eq, hnil] at h
    cases h
  · exact ⟨_, _, List.head?_eq_some_head hne, List.getLast?_eq_some_getLast hne⟩

/-- **From the start of a tree to the end of a later one** goes a stretch of the text. -/
theorem liesIn_between {us : List Tree} {u v : Tree} {a b : Span}
    (hus : (Tree.leavesOf us).Sublist (parse flavor source).tree.leaves)
    (hu : us.head? = some u) (hv : us.getLast? = some v)
    (ha : (parse flavor source).spanOf u = .ok a) (hb : (parse flavor source).spanOf v = .ok b) :
    Span.LiesIn ⟨a.start, b.stop⟩ source.toList := by
  have hts : ((Tree.leavesOf us).filter (·.isSignificant)).Sublist
      (parse flavor source).stream.significant := by
    rw [leaves_tree] at hus
    exact (hus.trans List.filter_sublist).filter _
  obtain ⟨first, firstEnd, hfirst, hfirst_end⟩ := exists_of_spanOf ha
  obtain ⟨lastStart, last, hlast_start, hlast⟩ := exists_of_spanOf hb
  have hsignificant : ∀ w ∈ us, w.significantTokens.Sublist
      (parse flavor source).stream.significant := fun w hw =>
    ((Tree.leavesOf_sublist us (Tree.mem_subtreesOf_of_mem hw)).filter _).trans hts
  have hspan_u := spanOf_eq_of_sublist (hsignificant u (List.mem_of_mem_head? hu)) hfirst hfirst_end
  have hspan_v := spanOf_eq_of_sublist (hsignificant v (List.mem_of_getLast? hv)) hlast_start hlast
  have hhead : ((Tree.leavesOf us).filter (·.isSignificant)).head? = some first := by
    obtain ⟨later, rfl⟩ := List.head?_eq_some_iff.mp hu
    rw [Tree.leavesOf_cons, List.filter_append, List.head?_append, ← Tree.significantTokens, hfirst,
      Option.some_or]
  have hgetLast : ((Tree.leavesOf us).filter (·.isSignificant)).getLast? = some last := by
    obtain ⟨earlier, rfl⟩ := List.getLast?_eq_some_iff.mp hv
    rw [Tree.leavesOf_append, Tree.leavesOf_cons, Tree.leavesOf_nil, List.append_nil,
      List.filter_append, List.getLast?_append, ← Tree.significantTokens, hlast, Option.some_or]
  obtain ⟨pre, mid, post, hcut, -, -, hstart, hstop⟩ := exists_cut_of_sublist hts hhead hgetLast
  rw [Except.ok.inj (ha.symm.trans hspan_u), Except.ok.inj (hb.symm.trans hspan_v)]
  exact Span.liesIn_iff.mpr ⟨pre, mid, post, hcut, by rw [hstart, hstop]⟩

/-- **Positions agree with the lexer, and edits with both.** Every token of the stream stands behind
the text that its offset, line and column tell. The span of a token that the grammar sees begins at its
offset and ends just past its text. So for every tree with such a token, in either tree of the
document, the one edit that puts a text in the place of its span replaces the bytes from its first to
its last one, and nothing else. -/
theorem positions_agree (flavor : Flavor) (source : String) :
    (∀ t ∈ (parse flavor source).stream.tokens, ∃ before rest,
      source.toList = before ++ rest ∧ t.IsBehind before) ∧
    (∀ t ∈ (parse flavor source).stream.significant,
      t.span.start.byteOffsetIn source.toList = t.offset ∧
      t.span.stop.byteOffsetIn source.toList = t.endOffset) ∧
    ∀ root, (parse flavor source).IsRoot root → ∀ u ∈ root.subtrees, u.significantTokens ≠ [] →
      ∃ first last span, u.significantTokens.head? = some first ∧
        u.significantTokens.getLast? = some last ∧ (parse flavor source).spanOf u = .ok span ∧
        ∃ pre mid post, source.toList = pre ++ (mid ++ post) ∧
          byteLength pre = first.offset ∧ byteLength (pre ++ mid) = last.endOffset ∧
          ∀ newText : String, TextEdit.applyAll source [⟨span, newText⟩] =
            String.ofList (pre ++ (newText.toList ++ post)) := by
  refine ⟨fun t ht => TokenStream.exists_before ht, fun t ht => ?_, fun root h u hu hne => ?_⟩
  · obtain ⟨before, rest, hcut, hbehind, hspan⟩ := TokenStream.exists_span ht
    rw [hspan]
    refine ⟨?_, ?_⟩
    · rw [hcut, Position.byteOffsetIn_after, hbehind.offset_eq]
    · rw [hcut, ← List.append_assoc, Position.byteOffsetIn_after, hbehind.endOffset]
  · have hfirst := List.head?_eq_some_head hne
    have hlast := List.getLast?_eq_some_getLast hne
    have hsub := significantTokens_sublist h hu
    obtain ⟨pre, mid, post, hcut, hpre, hmid, hstart, hstop⟩ :=
      exists_cut_of_sublist hsub hfirst hlast
    have hspan := spanOf_eq_of_sublist hsub hfirst hlast
    rw [hstart, hstop] at hspan
    refine ⟨_, _, _, hfirst, hlast, hspan, pre, mid, post, hcut, hpre, hmid, fun newText => ?_⟩
    apply String.toList_injective
    rw [TextEdit.toList_applyAll hcut rfl, String.toList_ofList]

end Parse

end QuestScript
