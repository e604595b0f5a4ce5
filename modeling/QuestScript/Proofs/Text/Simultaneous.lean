import QuestScript.Proofs.Text.Lines

/-! # Edits are made at once

All ranges of a list of edits are meant for the text as it was. `Replaces` says what making them at
once is: between the edits, in the order of their ranges, the text is kept, and each range gives way
to its new text. The edits are made one after the other, from the last to the first, and each finds
its range again although the text behind it has changed (`Replaces.foldr_apply`). So for ranges that
do not overlap the result is that of making them at once, in whatever order the edits are given
(`applyAll_simultaneous`). -/

namespace QuestScript.TextEdit

/-- Behind the text `before`, making the edits at once turns one text into another. The edits stand
in the order of their ranges. -/
inductive Replaces : List Char → List TextEdit → List Char → List Char → Prop
  /-- Behind the last edit the text is kept. -/
  | done {before rest} : Replaces before [] rest rest
  /-- Up to the range of an edit the text is kept; the range gives way to the new text. -/
  | edit {before kept old rest result edits} {edit : TextEdit}
      (range_eq : edit.range =
        ⟨Position.after (before ++ kept), Position.after (before ++ (kept ++ old))⟩)
      (others : Replaces (before ++ (kept ++ old)) edits rest result) :
      Replaces before (edit :: edits) (kept ++ (old ++ rest))
        (kept ++ (edit.newText.toList ++ result))

theorem Replaces.foldr_apply {before source result : List Char} {edits : List TextEdit}
    (h : Replaces before edits source result) :
    edits.foldr (fun edit text => apply text edit) (before ++ source) = before ++ result := by
  induction h with
  | done => rfl
  | @edit before kept old rest result edits edit range_eq others ih =>
    have hsource : before ++ (kept ++ (old ++ rest)) = before ++ (kept ++ old) ++ rest := by
      simp only [List.append_assoc]
    have hleft : before ++ (kept ++ old) ++ result = before ++ kept ++ (old ++ result) := by
      simp only [List.append_assoc]
    rw [← List.append_assoc] at range_eq
    rw [hsource, List.foldr_cons, ih, hleft, apply_eq range_eq, List.append_assoc]

theorem exists_replaces {before source : List Char} {edits : List TextEdit}
    (hbefore : ∀ e ∈ edits, Position.after before ≤ e.range.start)
    (hranges : ∀ e ∈ edits, e.range.LiesIn (before ++ source))
    (hapart : edits.Pairwise (·.range.stop ≤ ·.range.start)) :
    ∃ result, Replaces before edits source result := by
  induction edits generalizing before source with
  | nil => exact ⟨source, .done⟩
  | cons edit edits ih =>
    obtain ⟨hfirst, hapart⟩ := List.pairwise_cons.mp hapart
    obtain ⟨pre, old, rest, hcut, hrange⟩ := Span.liesIn_iff.mp (hranges edit List.mem_cons_self)
    have hpre : Position.after before ≤ Position.after pre := by
      have := hbefore edit List.mem_cons_self
      rwa [hrange] at this
    obtain ⟨kept, rfl, rfl⟩ := Position.exists_append_of_le hcut hpre
    rw [List.append_assoc before kept old] at hrange
    have hnext : ∀ e ∈ edits, Position.after (before ++ (kept ++ old)) ≤ e.range.start := by
      intro e he
      have := hfirst e he
      rwa [hrange] at this
    have hrest : ∀ e ∈ edits, e.range.LiesIn (before ++ (kept ++ old) ++ rest) := by
      intro e he
      have := hranges e (List.mem_cons_of_mem edit he)
      simpa only [List.append_assoc] using this
    obtain ⟨result, hresult⟩ := ih hnext hrest hapart
    exact ⟨kept ++ (edit.newText.toList ++ result), .edit hrange hresult⟩

theorem exists_perm_pairwise {edits : List TextEdit}
    (hstarts : (edits.map (·.range.start)).Nodup) :
    ∃ ordered : List TextEdit, ordered.Perm edits ∧
      ordered.Pairwise (·.range.start < ·.range.start) := by
  have hperm : (backToFront edits).reverse.Perm edits :=
    (List.reverse_perm _).trans (List.mergeSort_perm _ _)
  have hle : (backToFront edits).reverse.Pairwise (·.range.start ≤ ·.range.start) :=
    List.pairwise_reverse.mpr (pairwise_backToFront edits)
  have hnodup : ((backToFront edits).reverse.map (·.range.start)).Nodup :=
    (hperm.map _).nodup_iff.mpr hstarts
  have hne : (backToFront edits).reverse.Pairwise (·.range.start ≠ ·.range.start) :=
    List.pairwise_map.mp hnodup
  refine ⟨(backToFront edits).reverse, hperm, (hle.and hne).imp fun h => ?_⟩
  exact Position.lt_of_le_of_ne h.1 h.2

/-- **Edits of ranges that do not overlap are made at once**: in the order of their ranges they
replace, behind an empty text, the source by the result, and every order of the edits gives the same
result. The ranges are stretches of the source with different starts, and of two edits the one that
starts first ends where the other starts or before. -/
theorem applyAll_simultaneous (source : String) (edits : List TextEdit)
    (hranges : ∀ e ∈ edits, e.range.LiesIn source.toList)
    (hstarts : (edits.map (·.range.start)).Nodup)
    (hapart : ∀ a ∈ edits, ∀ b ∈ edits, a.range.start < b.range.start →
      a.range.stop ≤ b.range.start) :
    (∃ ordered : List TextEdit, ordered.Perm edits ∧
      ordered.Pairwise (·.range.start < ·.range.start) ∧
      Replaces [] ordered source.toList (applyAll source edits).toList) ∧
    ∀ other : List TextEdit, other.Perm edits → applyAll source other = applyAll source edits := by
  obtain ⟨ordered, hperm, hsorted⟩ := exists_perm_pairwise hstarts
  have hmem : ∀ e ∈ ordered, e ∈ edits := fun e => hperm.mem_iff.mp
  have hmade : ∀ other : List TextEdit, other.Perm edits → (applyAll source other).toList =
      ordered.foldr (fun edit text => apply text edit) source.toList := fun other hother =>
    toList_applyAll_of_perm hsorted (hother.trans hperm.symm) source
  refine ⟨⟨ordered, hperm, hsorted, ?_⟩, fun other hother => ?_⟩
  · have hfollow : ordered.Pairwise (·.range.stop ≤ ·.range.start) :=
      hsorted.imp_of_mem fun ha hb => hapart _ (hmem _ ha) _ (hmem _ hb)
    have hbefore : ∀ e ∈ ordered, Position.after [] ≤ e.range.start := fun e _ =>
      Position.after_nil_le e.range.start
    have hlie : ∀ e ∈ ordered, e.range.LiesIn ([] ++ source.toList) := fun e he =>
      hranges e (hmem e he)
    obtain ⟨result, hresult⟩ := exists_replaces hbefore hlie hfollow
    have hresult_eq : (applyAll source edits).toList = result := by
      rw [hmade edits (List.Perm.refl edits)]
      exact hresult.foldr_apply
    rwa [hresult_eq]
  · exact String.toList_injective ((hmade other hother).trans (hmade edits (List.Perm.refl _)).symm)

/-- Two ranges that touch, one of them over a line break, with new texts that bring further lines. -/
theorem applyAll_simultaneous_touching :
    let first : TextEdit := ⟨⟨⟨0, 1⟩, ⟨0, 3⟩⟩, "\n\n"⟩
    let second : TextEdit := ⟨⟨⟨0, 3⟩, ⟨1, 1⟩⟩, "x\ny"⟩
    let third : TextEdit := .insert ⟨1, 2⟩ "é"
    applyAll "one\ntwo" [second, third, first] = "o\n\nx\nywéo" ∧
      applyAll "one\ntwo" [third, first, second] = applyAll "one\ntwo" [second, third, first] := by
  intro first second third
  have hsorted : [first, second, third].Pairwise (·.range.start < ·.range.start) := by decide
  have hperm : [second, third, first].Perm [first, second, third] := by decide
  have hmade := toList_applyAll_of_perm hsorted hperm "one\ntwo"
  have h := applyAll_simultaneous "one\ntwo" [second, third, first] (by decide) (by decide)
    (by decide)
  refine ⟨String.toList_injective (hmade.trans ?_), h.2 [third, first, second] (by decide)⟩
  decide +kernel

end QuestScript.TextEdit
