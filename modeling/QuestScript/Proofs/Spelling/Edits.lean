import QuestScript.Proofs.Spelling.Distance
import Mathlib.Order.Bounds.Basic

/-! # The least cost of turning one text into another

A text is turned into another from its first character to its last: a character is kept, replaced,
left out or inserted (`Turns`). The entries of the full table are costs of doing so (`turns_entry`).
They are the least costs (`isLeast_distance`), although the table keeps a character that both texts
end in without comparing what else could be done with it: one more character changes an entry by at
most one (`Steady`), so that leaving it out and inserting it again cannot cost less. -/

namespace QuestScript.Spelling

/-- The first text is turned into the second at a cost, character by character to the end. -/
inductive Turns : List Char → List Char → ℚ → Prop
  | nil : Turns [] [] 0
  | keep {source target : List Char} {x : ℚ} (c : Char) :
      Turns source target x → Turns (source ++ [c]) (target ++ [c]) x
  | replace {source target : List Char} {x : ℚ} (c d : Char) :
      Turns source target x → Turns (source ++ [c]) (target ++ [d]) (x + replacing c d)
  | leaveOut {source target : List Char} {x : ℚ} (c : Char) :
      Turns source target x → Turns (source ++ [c]) target (x + 1)
  | insert {source target : List Char} {x : ℚ} (d : Char) :
      Turns source target x → Turns source (target ++ [d]) (x + 1)

/-! ## One more character -/

section Cell

variable {c d : Char} {both above left : ℚ}

theorem cell_le_replaced : cell c d both above left ≤ both + replacing c d := by
  by_cases h : c = d
  · subst h
    rw [cell_self]
    linarith [replacing_pos c c]
  · rw [cell_of_ne h]
    exact min_le_right _ _

/-- A cell differs by at most one from those beside it, if they do so from the one they share. -/
theorem abs_cell_sub (habove : |above - both| ≤ 1) (hleft : |left - both| ≤ 1) :
    |cell c d both above left - above| ≤ 1 ∧ |cell c d both above left - left| ≤ 1 := by
  rw [abs_le] at habove hleft
  by_cases h : c = d
  · subst h
    rw [cell_self, abs_le, abs_le]
    constructor <;> constructor <;> linarith
  · have hpos := replacing_pos c d
    have hle_above : cell c d both above left ≤ above + 1 := by
      rw [cell_of_ne h]
      exact (min_le_left _ _).trans (min_le_left _ _)
    have hle_left : cell c d both above left ≤ left + 1 := by
      rw [cell_of_ne h]
      exact (min_le_left _ _).trans (min_le_right _ _)
    have hge_above : above - 1 ≤ cell c d both above left :=
      le_cell (by linarith) (by linarith) (by linarith)
    have hge_left : left - 1 ≤ cell c d both above left :=
      le_cell (by linarith) (by linarith) (by linarith)
    rw [abs_le, abs_le]
    constructor <;> constructor <;> linarith

end Cell

/-- One more character in front of either text changes the entry by at most one. -/
structure Steady (source target : List Char) : Prop where
  /-- A character more in the first text. -/
  source_le : ∀ c, |entry (c :: source) target - entry source target| ≤ 1
  /-- A character more in the second text. -/
  target_le : ∀ d, |entry source (d :: target) - entry source target| ≤ 1

theorem steady (source target : List Char) : Steady source target := by
  have hnil : ∀ n : ℕ, |((n + 1 : ℕ) : ℚ) - n| ≤ 1 := by simp
  induction source, target using entry_induction with
  | hleft target =>
    induction target with
    | nil => exact ⟨fun c => by simp [entry_nil_right], fun d => by simp [entry_nil_left]⟩
    | cons e target ih =>
      exact ⟨fun c => (abs_cell_sub (ih.target_le e) (ih.source_le c)).1, fun d => hnil _⟩
  | hright source =>
    induction source with
    | nil => exact ⟨fun c => by simp [entry_nil_right], fun d => by simp [entry_nil_left]⟩
    | cons e source ih =>
      refine ⟨fun c => ?_, fun d => (abs_cell_sub (ih.target_le d) (ih.source_le e)).2⟩
      rw [entry_nil_right, entry_nil_right]
      exact hnil _
  | hcell c d source target hboth habove hleft =>
    exact ⟨fun e => (abs_cell_sub (hleft.target_le d) (hleft.source_le e)).1,
      fun e => (abs_cell_sub (habove.target_le e) (habove.source_le c)).2⟩

/-! ## The table -/

theorem turns_entry (source target : List Char) :
    Turns source.reverse target.reverse (entry source target) := by
  induction source, target using entry_induction with
  | hleft target =>
    induction target with
    | nil => exact .nil
    | cons d target ih =>
      rw [entry_nil_left] at ih ⊢
      rw [List.reverse_cons, List.length_cons, Nat.cast_succ]
      exact ih.insert d
  | hright source =>
    induction source with
    | nil => exact .nil
    | cons c source ih =>
      rw [entry_nil_right] at ih ⊢
      rw [List.reverse_cons, List.length_cons, Nat.cast_succ]
      exact ih.leaveOut c
  | hcell c d source target hboth habove hleft =>
    simp only [List.reverse_cons] at hboth habove hleft ⊢
    rw [entry_cons_cons]
    by_cases h : c = d
    · subst h
      rw [cell_self]
      exact hboth.keep c
    · rw [cell_of_ne h]
      obtain hmin | hmin := min_choice
        (min (entry source (d :: target) + 1) (entry (c :: source) target + 1))
        (entry source target + replacing c d)
      · rw [hmin]
        obtain hmin | hmin := min_choice (entry source (d :: target) + 1)
          (entry (c :: source) target + 1)
        · rw [hmin]
          exact habove.leaveOut c
        · rw [hmin]
          exact hleft.insert d
      · rw [hmin]
        exact hboth.replace c d

theorem entry_le_of_turns {source target : List Char} {x : ℚ} (h : Turns source target x) :
    entry source.reverse target.reverse ≤ x := by
  induction h with
  | nil => simp [entry_nil_left]
  | keep c _ ih =>
    rw [List.reverse_concat, List.reverse_concat, entry_cons_cons, cell_self]
    exact ih
  | replace c d _ ih =>
    rw [List.reverse_concat, List.reverse_concat, entry_cons_cons]
    exact cell_le_replaced.trans (by linarith)
  | @leaveOut source target x c _ ih =>
    rw [List.reverse_concat]
    have hstep := (abs_le.mp ((steady source.reverse target.reverse).source_le c)).2
    linarith
  | @insert source target x d _ ih =>
    rw [List.reverse_concat]
    have hstep := (abs_le.mp ((steady source.reverse target.reverse).target_le d)).2
    linarith

/-- **The distance is the least cost of turning one text into the other.** -/
theorem isLeast_distance (source target : List Char) :
    IsLeast {x | Turns source target x} (distance source target) := by
  refine ⟨?_, fun x hx => entry_le_of_turns hx⟩
  have h := turns_entry source.reverse target.reverse
  rwa [List.reverse_reverse, List.reverse_reverse] at h

end QuestScript.Spelling
