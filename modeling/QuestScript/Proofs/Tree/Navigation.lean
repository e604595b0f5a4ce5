import QuestScript.Proofs.Check.Complete
import QuestScript.Proofs.Span
import QuestScript.Proofs.Token.Order
import QuestScript.Proofs.Tree.Walk

/-! # Getting around in a document

Below the file every tree of a document has a token (`Parse.isSolid_fullTree`), and its tokens are in order,
so the walks through it arrive where the tree says. A tree is a stretch of the document, so it has all
significant tokens from its first to its last (`Parse.mem_significantTokens_of_between`). -/

namespace QuestScript

namespace Parse
variable {flavor : Flavor} {source : String} {e parent : Place} {u : Tree} {first last s : Token}

/-- **Below the file every tree has a token.** -/
theorem isSolid_fullTree (flavor : Flavor) (source : String) :
    (parse flavor source).fullTree.IsSolid := by
  intro u hu
  have htree := isTolerated_tree flavor source
  rcases Tree.isWoven_below hu with ⟨s, rfl⟩ | ⟨t, ht, document, rfl⟩
  · rw [Tree.leaves_token]
    exact List.cons_ne_nil _ _
  · have hmem : t ∈ (parse flavor source).tree.subtrees := Tree.mem_subtrees_iff.mpr (.inr ht)
    have hsig : ∀ l ∈ t.leaves, l.isSignificant = true := fun l hl =>
      (List.mem_filter.mp ((leaves_sublist_significant flavor source hmem).subset hl)).2
    obtain ⟨s, hs, -⟩ := (Tree.tight_weave t document (htree.subtrees t hmem)
      (htree.not_file_of_below t ht) hsig).first
    exact List.ne_nil_of_mem (List.mem_of_mem_head? hs)

theorem pairwise_offset_leaves (flavor : Flavor) (source : String) :
    (parse flavor source).fullTree.leaves.Pairwise (·.offset < ·.offset) := by
  rw [leaves_fullTree]
  exact (TokenStream.pairwise_offset_tokens flavor source).sublist List.filter_sublist

/-! ### The tokens of a tree in the stream -/

theorem significantTokens_sublist_of_place
    (he : e ∈ (Place.root (parse flavor source).fullTree).descendants) :
    e.focus.significantTokens.Sublist (parse flavor source).stream.significant :=
  significantTokens_sublist (.inr rfl) (Place.isIn_of_mem_descendants he).focus

theorem get?_of_mem_significant (h : s ∈ (parse flavor source).stream.significant) :
    (parse flavor source).stream.get? s.index = some s :=
  TokenStream.get?_index (TokenStream.mem_tokens_of_mem_document (List.mem_filter.mp h).1)

/-- **What stands between two tokens of a tree belongs to the tree.** -/
theorem mem_significantTokens_of_between
    (he : e ∈ (Place.root (parse flavor source).fullTree).descendants)
    (hfirst : first ∈ e.focus.significantTokens) (hlast : last ∈ e.focus.significantTokens)
    (hs : s ∈ (parse flavor source).stream.significant) (hfirst_le : first.index ≤ s.index)
    (hle_last : s.index ≤ last.index) : s ∈ e.focus.significantTokens := by
  obtain ⟨before, after, hleaves⟩ := Place.leaves_infix he
  obtain ⟨hs, hsig⟩ := List.mem_filter.mp hs
  have hsorted : (before ++ e.focus.leaves ++ after).Pairwise (·.index < ·.index) := by
    rw [hleaves, leaves_fullTree]
    exact (TokenStream.pairwise_index_tokens flavor source).sublist List.filter_sublist
  rw [← leaves_fullTree, ← hleaves, List.mem_append, List.mem_append] at hs
  obtain ⟨hbefore, -, hafter⟩ := List.pairwise_append.mp hsorted
  obtain ⟨-, -, hbefore⟩ := List.pairwise_append.mp hbefore
  have hfirst := (List.mem_filter.mp hfirst).1
  have hlast := (List.mem_filter.mp hlast).1
  rcases hs with (hs | hs) | hs
  · exact absurd (hbefore s hs first hfirst) (Nat.not_lt.mpr hfirst_le)
  · exact List.mem_filter.mpr ⟨hs, hsig⟩
  · exact absurd (hafter last (List.mem_append_right _ hlast) s hs) (Nat.not_lt.mpr hle_last)

/-! ### Coherence -/

/-- **The ways through a document agree**, at every place of the tree that is returned for it, whatever
errors it has. Its first and its last significant token are found at both ends of its significant tokens. A
significant place that has a parent is its child at some index, by which it is looked up, and the walks to
its siblings come to the children at the next index and at the one before, and undo each other. Its tokens
are those of the stream, from the first to the last of them. -/
theorem navigation_coherent (he : e ∈ (Place.root (parse flavor source).fullTree).descendants) :
    (e.focus.firstToken? = e.focus.significantTokens.head? ∧
      e.lastToken? = e.focus.significantTokens.getLast? ∧ e.focus.lastToken? = e.lastToken?) ∧
    (e.focus.isHidden = false → ∀ parent, e.parent? = some parent →
      ∃ i, e.childIndex? = some i ∧ e.index? = some i ∧ parent.child? i = some e ∧
        e.nextSibling? = parent.child? (i + 1) ∧
        e.previousSibling? = (if i = 0 then none else parent.child? (i - 1)) ∧
        (∀ q, e.nextSibling? = some q → q.previousSibling? = some e) ∧
        (∀ q, e.previousSibling? = some q → q.nextSibling? = some e) ∧
        e.next? = e.nextSibling?.map (·.focus) ∧ e.previous? = e.previousSibling?.map (·.focus) ∧
        e.previousPlace? = e.previousSibling?) ∧
    (e.focus.significantTokens = [] → (parse flavor source).tokenRange? e.focus = none) ∧
    ∀ first last, e.focus.significantTokens.head? = some first →
      e.focus.significantTokens.getLast? = some last →
      (parse flavor source).tokenRange? e.focus = some (first.index, last.index) ∧
        (parse flavor source).stream.get? first.index = some first ∧
        (parse flavor source).stream.get? last.index = some last ∧
        ∀ s ∈ (parse flavor source).stream.significant, first.index ≤ s.index →
          s.index ≤ last.index → s ∈ e.focus.significantTokens := by
  have hsorted := pairwise_offset_leaves flavor source
  have hsolid := isSolid_fullTree flavor source
  have hsublist := significantTokens_sublist_of_place he
  have hlast := Place.lastToken?_eq hsorted hsolid he
  refine ⟨⟨e.focus.firstToken?_eq, ?_, hlast.symm⟩, fun hhidden parent hparent => ?_,
    tokenRange?_eq_none _, fun first last hfirst hlast =>
      ⟨tokenRange?_eq_of_sublist hsublist hfirst hlast, ?_, ?_, ?_⟩⟩
  · rw [hlast, Tree.lastToken?_eq]
  · obtain ⟨i, hindex⟩ := Place.exists_index? hhidden hparent
    obtain ⟨hchild, hnext, hprevious⟩ := Place.siblings_of_index? hindex hparent
    obtain ⟨hfocus_next, hfocus_previous⟩ := e.focus_siblings
    refine ⟨i, Place.childIndex?_eq hsorted hsolid he hindex hparent, hindex, hchild, hnext, hprevious,
      fun q => Place.previousSibling?_of_nextSibling? hindex hparent,
      fun q => Place.nextSibling?_of_previousSibling? hindex hparent, hfocus_next.symm,
      hfocus_previous.symm, ?_⟩
    rw [Place.previousPlace?, hindex, hparent, hprevious]
    cases i <;> rfl
  · exact get?_of_mem_significant (hsublist.subset (List.mem_of_mem_head? hfirst))
  · exact get?_of_mem_significant (hsublist.subset (List.mem_of_getLast? hlast))
  · exact fun s => mem_significantTokens_of_between he (List.mem_of_mem_head? hfirst)
      (List.mem_of_getLast? hlast)

/-- The name of a state is its second child, and the walk past the comment behind it leads back to it. -/
theorem navigation_coherent_name :
    ∃ e ∈ (Place.root (parse .eoserv "state A // c\n\x7b \x7d").fullTree).descendants,
      ∃ parent brace, e.parent? = some parent ∧ parent.child? 1 = some e ∧
        e.nextSibling? = some brace ∧ brace.previousSibling? = some e := by
  have hname : ((Place.root (parse .eoserv "state A // c\n\x7b \x7d").fullTree).descendants[5]?).map
      (fun e => (e.focus.isHidden, e.parent?.isSome, e.index?, e.nextSibling?.isSome)) =
        some (false, true, some 1, true) := by
    decide +kernel
  obtain ⟨e, he, h⟩ := Option.map_eq_some_iff.mp hname
  simp only [Prod.mk.injEq] at h
  obtain ⟨hhidden, hparent, hindex, hnext⟩ := h
  obtain ⟨parent, hparent⟩ := Option.isSome_iff_exists.mp hparent
  obtain ⟨brace, hnext⟩ := Option.isSome_iff_exists.mp hnext
  have hmem := List.mem_of_getElem? he
  obtain ⟨i, -, hi, hchild, -, -, hback, -⟩ :=
    (navigation_coherent hmem).2.1 hhidden parent hparent
  obtain rfl : i = 1 := Option.some.inj (hi.symm.trans hindex)
  exact ⟨e, hmem, parent, brace, hparent, hchild, hnext, hback brace hnext⟩

end Parse

end QuestScript
