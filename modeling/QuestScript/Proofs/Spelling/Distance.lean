import QuestScript.Spelling
import Mathlib.Data.Rat.Floor
import Mathlib.Tactic.Linarith
import Mathlib.Tactic.Ring

/-! # The distance of two texts

Distances measured in rational numbers, where no rounding occurs. Every pair of texts has an entry in
the full table (`entry`, `distance`): the table has no band, no filler and no bound, and each of its
cells comes from three others by the rule of the search, `cell`.

Two facts about the table justify a search that leaves most of it out. An entry is at least the
difference of the lengths of its texts (`abs_length_sub_le_entry`), so that what lies far from the
diagonal is large. And once a row exceeds a bound everywhere, so do the rows
after it (`lt_entry_append`). A third one is about comparing two distances: they are whole numbers of
tenths (`tenths_entry`), hence the lesser of two is less by a tenth. -/

namespace QuestScript.Spelling

instance : Cost ℚ where
  ofNat n := n
  tenth := 1 / 10
  hundredth := 1 / 100
  atMost a b := decide (a ≤ b)
  floor a := ⌊a⌋₊
  ceil a := ⌈a⌉₊

@[simp] theorem ofNat_eq (n : ℕ) : (Cost.ofNat n : ℚ) = n := rfl

@[simp] theorem tenth_eq : (Cost.tenth : ℚ) = 1 / 10 := rfl

@[simp] theorem hundredth_eq : (Cost.hundredth : ℚ) = 1 / 100 := rfl

@[simp] theorem atMost_iff (a b : ℚ) : Cost.atMost a b = true ↔ a ≤ b := decide_eq_true_iff

@[simp] theorem least_eq (a b : ℚ) : least a b = min a b := by
  simp [least, min_def]

/-! ## One cell -/

/-- The cost of one character in place of another. -/
def replacing (c d : Char) : ℚ := if sameLetter c d then 1 / 10 else 2

theorem replacing_pos (c d : Char) : 0 < replacing c d := by
  unfold replacing
  split <;> norm_num

theorem cell_self (c : Char) (both above left : ℚ) : cell c c both above left = both := if_pos rfl

theorem cell_of_ne {c d : Char} (h : c ≠ d) (both above left : ℚ) :
    cell c d both above left = min (min (above + 1) (left + 1)) (both + replacing c d) := by
  have hreplacing : (if sameLetter c d then Cost.tenth else Cost.ofNat 2 : ℚ) = replacing c d := by
    simp [replacing]
  unfold cell
  rw [if_neg h, hreplacing]
  simp only [least_eq, ofNat_eq, Nat.cast_one]

variable {c d : Char} {both above left x : ℚ}

theorem le_cell (hboth : x ≤ both) (habove : x ≤ above + 1) (hleft : x ≤ left + 1) :
    x ≤ cell c d both above left := by
  by_cases h : c = d
  · subst h
    rwa [cell_self]
  · have hpos := replacing_pos c d
    rw [cell_of_ne h]
    exact le_min (le_min habove hleft) (by linarith)

theorem lt_cell (hboth : x < both) (habove : x < above + 1) (hleft : x < left + 1) :
    x < cell c d both above left := by
  by_cases h : c = d
  · subst h
    rwa [cell_self]
  · have hpos := replacing_pos c d
    rw [cell_of_ne h]
    exact lt_min (lt_min habove hleft) (by linarith)

/-! ## The full table -/

/-- The row of `c`, up to a text given backwards: `above` is the row before, and `first` stands in
front of the row. -/
def rowEntry (c : Char) (above : List Char → ℚ) (first : ℚ) : List Char → ℚ
  | [] => first
  | d :: target => cell c d (above target) (above (d :: target)) (rowEntry c above first target)

/-- The entry of the full table for two texts, both given backwards. -/
def entry : List Char → List Char → ℚ
  | [] => fun target => target.length
  | c :: source => rowEntry c (entry source) (source.length + 1)

/-- The distance of two texts. -/
def distance (source target : List Char) : ℚ := entry source.reverse target.reverse

theorem entry_nil_left (target : List Char) : entry [] target = target.length := rfl

theorem entry_nil_right (source : List Char) : entry source [] = source.length := by
  cases source with
  | nil => rfl
  | cons c source => simp [entry, rowEntry]

theorem entry_cons_cons (c d : Char) (source target : List Char) :
    entry (c :: source) (d :: target) =
      cell c d (entry source target) (entry source (d :: target)) (entry (c :: source) target) :=
  rfl

/-- A statement about all entries holds if it holds in the first row and the first column, and in
every cell if it holds in the three that the cell comes from. -/
theorem entry_induction {P : List Char → List Char → Prop} (hleft : ∀ target, P [] target)
    (hright : ∀ source, P source [])
    (hcell : ∀ c d source target, P source target → P source (d :: target) →
      P (c :: source) target → P (c :: source) (d :: target)) :
    ∀ source target, P source target := by
  intro source
  induction source with
  | nil => exact hleft
  | cons c source ihsource =>
    intro target
    induction target with
    | nil => exact hright _
    | cons d target ihtarget => exact hcell c d source target (ihsource _) (ihsource _) ihtarget

/-! ## Entries far from the diagonal -/

theorem abs_length_sub_le_entry (source target : List Char) :
    |(source.length : ℚ) - target.length| ≤ entry source target := by
  induction source, target using entry_induction with
  | hleft target => simp [entry_nil_left]
  | hright source => simp [entry_nil_right]
  | hcell c d source target hboth habove hleft =>
    rw [entry_cons_cons]
    push_cast [List.length_cons] at *
    rw [abs_le] at hboth habove hleft
    refine le_cell ?_ ?_ ?_ <;> rw [abs_le] <;> constructor <;> linarith

/-! ## Rows that exceed a bound -/

theorem lt_entry_cons {max : ℚ} (c : Char) {source : List Char} (target : List Char)
    (h : ∀ t, t <:+ target → max < entry source t) : max < entry (c :: source) target := by
  induction target with
  | nil =>
    have hfirst := h [] (List.suffix_refl _)
    rw [entry_nil_right] at hfirst ⊢
    push_cast [List.length_cons]
    linarith
  | cons d target ih =>
    have hboth := h target (List.suffix_cons d target)
    have habove := h (d :: target) (List.suffix_refl _)
    have hleft := ih fun t ht => h t (ht.trans (List.suffix_cons d target))
    rw [entry_cons_cons]
    exact lt_cell hboth (by linarith) (by linarith)

theorem lt_entry_append {max : ℚ} (more : List Char) {source : List Char} (target : List Char)
    (h : ∀ t, t <:+ target → max < entry source t) : max < entry (more ++ source) target := by
  induction more generalizing target with
  | nil => exact h target (List.suffix_refl _)
  | cons c more ih =>
    exact lt_entry_cons c target fun t ht => ih t fun t' ht' => h t' (ht'.trans ht)

/-! ## Tenths -/

/-- A whole number of tenths. -/
def Tenths (x : ℚ) : Prop := ∃ n : ℕ, x = n / 10

theorem tenths_natCast (n : ℕ) : Tenths n := ⟨10 * n, by push_cast; ring⟩

theorem Tenths.add {x y : ℚ} (hx : Tenths x) (hy : Tenths y) : Tenths (x + y) := by
  obtain ⟨m, rfl⟩ := hx
  obtain ⟨n, rfl⟩ := hy
  exact ⟨m + n, by push_cast; ring⟩

theorem Tenths.min {x y : ℚ} (hx : Tenths x) (hy : Tenths y) : Tenths (min x y) := by
  cases min_choice x y with
  | inl h => rwa [h]
  | inr h => rwa [h]

theorem tenths_replacing (c d : Char) : Tenths (replacing c d) := by
  unfold replacing
  split
  · exact ⟨1, by norm_num⟩
  · exact ⟨20, by norm_num⟩

theorem tenths_entry (source target : List Char) : Tenths (entry source target) := by
  induction source, target using entry_induction with
  | hleft target => exact tenths_natCast _
  | hright source =>
    rw [entry_nil_right]
    exact tenths_natCast _
  | hcell c d source target hboth habove hleft =>
    have hone : Tenths 1 := ⟨10, by norm_num⟩
    rw [entry_cons_cons]
    by_cases h : c = d
    · subst h
      rwa [cell_self]
    · rw [cell_of_ne h]
      exact ((habove.add hone).min (hleft.add hone)).min (hboth.add (tenths_replacing c d))

/-- Of two numbers of tenths, the lesser is less by a tenth. -/
theorem Tenths.le_sub_tenth_iff {x y : ℚ} (hx : Tenths x) (hy : Tenths y) :
    x ≤ y - 1 / 10 ↔ x < y := by
  obtain ⟨m, rfl⟩ := hx
  obtain ⟨n, rfl⟩ := hy
  constructor
  · intro h
    linarith
  · intro h
    have hlt : m < n := by
      have : (m : ℚ) < n := by linarith
      exact_mod_cast this
    have hle : (m : ℚ) + 1 ≤ n := by exact_mod_cast hlt
    linarith

end QuestScript.Spelling
