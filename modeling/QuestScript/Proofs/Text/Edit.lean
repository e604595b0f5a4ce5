import Mathlib.Data.List.Induction
import Mathlib.Data.List.TakeWhile
import QuestScript.Proofs.Token.Place
import QuestScript.Text.Edit

/-! # Positions and edits

The position at the end of a part of a text (`Position.after`) is that of a cursor (`advance_start`)
and lies behind the characters of that part (`offsetIn_after`). So an edit of what stands between two
such positions replaces just that (`apply_eq`). Several edits with different starts are made from the
last to the first, in whatever order they are given (`toList_applyAll_of_perm`). -/

namespace QuestScript

/-! ### Positions -/

/-- Number of characters after the last line break. -/
def lastColumn (text : List Char) : Nat := (text.reverse.takeWhile (· != '\n')).length

/-- The position at the end of a text. -/
def Position.after (text : List Char) : Position := ⟨text.count '\n', lastColumn text⟩

theorem lastColumn_concat (text : List Char) (c : Char) :
    lastColumn (text ++ [c]) = if c = '\n' then 0 else lastColumn text + 1 := by
  unfold lastColumn
  rw [List.reverse_append, List.reverse_singleton, List.singleton_append, List.takeWhile_cons]
  by_cases hc : c = '\n'
  · simp [hc]
  · simp [hc]

theorem lastColumn_of_notMem {text : List Char} (h : '\n' ∉ text) :
    lastColumn text = text.length := by
  unfold lastColumn
  rw [List.takeWhile_eq_self_iff.mpr, List.length_reverse]
  intro c hc
  have hne : c ≠ '\n' := by
    rintro rfl
    exact h (List.mem_reverse.mp hc)
  simp [hne]

theorem lastColumn_cons_of_mem {text : List Char} (h : '\n' ∈ text) (c : Char) :
    lastColumn (c :: text) = lastColumn text := by
  have hshort : (text.reverse.takeWhile (· != '\n')).length ≠ text.reverse.length := by
    intro hlength
    have hall := List.takeWhile_eq_self_iff.mp
      ((List.takeWhile_sublist (· != '\n')).eq_of_length hlength)
    have := hall '\n' (List.mem_reverse.mpr h)
    simp at this
  unfold lastColumn
  rw [List.reverse_cons, List.takeWhile_append, if_neg hshort]

theorem lastColumn_newline_cons {text : List Char} (h : '\n' ∉ text) :
    lastColumn ('\n' :: text) = text.length := by
  have hall : text.reverse.takeWhile (· != '\n') = text.reverse :=
    List.takeWhile_eq_self_iff.mpr fun c hc => by
      have hne : c ≠ '\n' := fun h' => h (h' ▸ List.mem_reverse.mp hc)
      simp [hne]
  unfold lastColumn
  rw [List.reverse_cons, List.takeWhile_append, hall, if_pos rfl]
  simp

namespace Position

/-- Where a position of a text moves when a character is put in front of the text. -/
def behind (c : Char) (p : Position) : Position :=
  if c = '\n' then ⟨p.line + 1, p.column⟩ else if p.line = 0 then ⟨0, p.column + 1⟩ else p

@[simp] theorem after_nil : after [] = ⟨0, 0⟩ := rfl

theorem after_cons (c : Char) (text : List Char) : after (c :: text) = (after text).behind c := by
  unfold after behind
  dsimp only
  by_cases hmem : '\n' ∈ text
  · have hcount : text.count '\n' ≠ 0 := (List.count_pos_iff.mpr hmem).ne'
    rw [lastColumn_cons_of_mem hmem, if_neg hcount]
    by_cases hc : c = '\n'
    · rw [if_pos hc, hc, List.count_cons_self]
    · rw [if_neg hc, List.count_cons_of_ne hc]
  · have hcount : text.count '\n' = 0 := List.count_eq_zero.mpr hmem
    rw [if_pos hcount, lastColumn_of_notMem hmem]
    by_cases hc : c = '\n'
    · rw [if_pos hc, hc, List.count_cons_self, lastColumn_newline_cons hmem]
    · have hnot : '\n' ∉ c :: text := by
        simp [hmem, Ne.symm hc]
      rw [if_neg hc, List.count_cons_of_ne hc, hcount, lastColumn_of_notMem hnot, List.length_cons]

theorem offsetIn_behind (p : Position) (c : Char) (text : List Char) :
    (p.behind c).offsetIn (c :: text) = p.offsetIn text + 1 := by
  obtain ⟨line, column⟩ := p
  unfold behind offsetIn
  by_cases hc : c = '\n'
  · rw [if_pos hc, offsetAt, if_pos hc]
  · rw [if_neg hc]
    cases line with
    | zero => simp [offsetAt, hc, Nat.succ_min_succ]
    | succ line => simp [offsetAt, hc]

end Position

/-- **A cursor is at the end of the text that it has passed.** -/
theorem Cursor.advance_start (text : List Char) : Cursor.start.advance text =
    ⟨byteLength text, (Position.after text).line + 1, (Position.after text).column⟩ := by
  induction text using List.reverseRecOn with
  | nil => rfl
  | append_singleton text c ih =>
    rw [Cursor.advance_append, ih]
    show Cursor.step _ c = _
    unfold Position.after
    rw [lastColumn_concat, List.count_append, byteLength_append]
    by_cases hc : c = '\n'
    · simp [Cursor.step, hc]
    · simp [Cursor.step, hc]

theorem Position.after_append {pre text : List Char} (h : '\n' ∉ text) :
    Position.after (pre ++ text) =
      ⟨(Position.after pre).line, (Position.after pre).column + text.length⟩ := by
  induction text using List.reverseRecOn with
  | nil => simp
  | append_singleton text c ih =>
    have hc : c ≠ '\n' := by
      rintro rfl
      exact h (by simp)
    have ih := ih fun hmem => h (by simp [hmem])
    unfold Position.after at ih ⊢
    rw [Position.mk.injEq] at ih
    rw [← List.append_assoc, lastColumn_concat, if_neg hc, ih.2, List.count_append, ih.1]
    simp [hc, Nat.add_assoc]

/-- **Before the end of a part of a text stand the characters of that part.** -/
theorem Position.offsetIn_after (pre rest : List Char) :
    (Position.after pre).offsetIn (pre ++ rest) = pre.length := by
  induction pre with
  | nil => cases rest <;> simp [offsetIn, offsetAt]
  | cons c pre ih => rw [after_cons, List.cons_append, offsetIn_behind, ih, List.length_cons]

theorem Position.le_of_lt {a b : Position} (h : a < b) : a ≤ b := by
  rw [lt_iff] at h
  rw [le_iff]
  omega

theorem Position.lt_of_lt_of_le {a b c : Position} (hab : a < b) (hbc : b ≤ c) : a < c := by
  rw [lt_iff] at *
  rw [le_iff] at hbc
  omega

theorem Position.ne_of_lt {a b : Position} (h : a < b) : a ≠ b := by
  rintro rfl
  rw [lt_iff] at h
  omega

theorem Position.le_antisymm {a b : Position} (hab : a ≤ b) (hba : b ≤ a) : a = b := by
  obtain ⟨aline, acolumn⟩ := a
  obtain ⟨bline, bcolumn⟩ := b
  simp only [le_iff] at hab hba
  rw [mk.injEq]
  omega

theorem Position.lt_of_le_of_ne {a b : Position} (hle : a ≤ b) (hne : a ≠ b) : a < b := by
  by_contra hlt
  refine hne (le_antisymm hle ?_)
  rw [lt_iff] at hlt
  rw [le_iff] at hle ⊢
  omega

theorem Position.after_nil_le (p : Position) : after [] ≤ p := by
  rw [after_nil, le_iff]
  dsimp only
  omega

/-- **The end of a text is after the end of each of its parts.** -/
theorem Position.lt_after_append (pre : List Char) {text : List Char} (h : text ≠ []) :
    Position.after pre < Position.after (pre ++ text) := by
  have hstep : ∀ (pre : List Char) c, Position.after pre < Position.after (pre ++ [c]) := by
    intro pre c
    rw [lt_iff]
    unfold Position.after
    rw [lastColumn_concat, List.count_append]
    by_cases hc : c = '\n'
    · simp [hc]
    · simp [hc]
  induction text using List.reverseRecOn with
  | nil => exact absurd rfl h
  | append_singleton text c ih =>
    rw [← List.append_assoc]
    rcases eq_or_ne text [] with rfl | hne
    · rw [List.append_nil]
      exact hstep pre c
    · exact lt_of_lt_of_le (ih hne) (le_of_lt (hstep (pre ++ text) c))

/-! ### Edits -/

namespace TextEdit

/-- **An edit replaces what stands between two positions.** -/
theorem apply_eq {pre mid post : List Char} {edit : TextEdit}
    (hrange : edit.range = ⟨Position.after pre, Position.after (pre ++ mid)⟩) :
    apply (pre ++ (mid ++ post)) edit = pre ++ (edit.newText.toList ++ post) := by
  have hstart : edit.range.start.offsetIn (pre ++ (mid ++ post)) = pre.length := by
    rw [hrange]
    exact Position.offsetIn_after pre (mid ++ post)
  have hstop : edit.range.stop.offsetIn (pre ++ (mid ++ post)) = (pre ++ mid).length := by
    rw [hrange, ← List.append_assoc]
    exact Position.offsetIn_after (pre ++ mid) post
  have hmax : max pre.length (pre ++ mid).length = (pre ++ mid).length := by
    rw [List.length_append]
    omega
  unfold apply
  simp only [hstart, hstop, hmax]
  rw [List.take_left, ← List.append_assoc pre mid post, List.drop_left, List.append_assoc]

theorem toList_applyAll {source : String} {pre mid post : List Char} {edit : TextEdit}
    (hsource : source.toList = pre ++ (mid ++ post))
    (hrange : edit.range = ⟨Position.after pre, Position.after (pre ++ mid)⟩) :
    (applyAll source [edit]).toList = pre ++ (edit.newText.toList ++ post) := by
  have hone : backToFront [edit] = [edit] := List.mergeSort_singleton edit
  rw [applyAll, String.toList_ofList, hone, hsource]
  exact apply_eq hrange

theorem pairwise_backToFront (edits : List TextEdit) :
    (backToFront edits).Pairwise (fun a b => b.range.start ≤ a.range.start) := by
  have htrans : ∀ a b c : TextEdit, decide (b.range.start ≤ a.range.start) = true →
      decide (c.range.start ≤ b.range.start) = true →
        decide (c.range.start ≤ a.range.start) = true := fun a b c hab hbc =>
    decide_eq_true (Position.le_trans (of_decide_eq_true hbc) (of_decide_eq_true hab))
  have htotal : ∀ a b : TextEdit, (decide (b.range.start ≤ a.range.start) ||
      decide (a.range.start ≤ b.range.start)) = true := fun a b => by
    rw [Bool.or_eq_true, decide_eq_true_eq, decide_eq_true_eq]
    exact Position.le_total _ _
  exact (List.pairwise_mergeSort htrans htotal edits).imp of_decide_eq_true

section Several
variable {edits : List TextEdit} (h : edits.Pairwise (·.range.start < ·.range.start))
include h

/-- **Whatever their order, edits with different starts are sorted in one way.** -/
theorem backToFront_of_perm {other : List TextEdit} (hother : other.Perm edits) :
    backToFront other = edits.reverse := by
  have hperm : (backToFront other).Perm edits := (List.mergeSort_perm _ _).trans hother
  have hreverse : edits.reverse.Pairwise fun a b => b.range.start ≤ a.range.start :=
    List.pairwise_reverse.mpr (h.imp Position.le_of_lt)
  have hstarts : (edits.map (·.range.start)).Nodup :=
    List.pairwise_map.mpr (h.imp Position.ne_of_lt)
  refine (hperm.trans (List.reverse_perm edits).symm).eq_of_pairwise ?_
    (pairwise_backToFront other) hreverse
  intro a b ha hb hba hab
  exact List.inj_on_of_nodup_map hstarts (hperm.mem_iff.mp ha) (List.mem_reverse.mp hb)
    (Position.le_antisymm hab hba)

/-- **Edits from the first start to the last are made from the last to the first.** -/
theorem toList_applyAll_of_perm {other : List TextEdit} (hother : other.Perm edits)
    (source : String) : (applyAll source other).toList =
      edits.foldr (fun edit text => apply text edit) source.toList := by
  rw [applyAll, String.toList_ofList, backToFront_of_perm h hother, List.foldl_reverse]

end Several

end TextEdit

end QuestScript
