import QuestScript.Proofs.Spelling.Distance
import Mathlib.Data.List.Infix

/-! # The band of the search

The search fills only the cells of a row that lie between two columns (`bandFirst`, `bandLast`) and
ends with the first row that exceeds the bound everywhere. What it computes may differ from the full
table, but only where both exceed the bound (`Near`). This holds of the first row, every further row
keeps it (`near_nextRow`), and a cell that is `Near` an entry agrees with it on the question of the
search, whether the distance is at most the bound (`distanceWithin_eq_some_iff`). -/

namespace QuestScript.Spelling

/-! ## Close enough -/

/-- The number found is the exact one, or both exceed the bound. -/
def Near (max found exact : ℚ) : Prop := found = exact ∨ (max < found ∧ max < exact)

section Near

variable {max x y x' y' k : ℚ}

theorem Near.le_iff (h : Near max x y) : x ≤ max ↔ y ≤ max := by
  obtain rfl | ⟨hx, hy⟩ := h
  · exact Iff.rfl
  · exact ⟨fun hle => absurd hle hx.not_ge, fun hle => absurd hle hy.not_ge⟩

theorem Near.eq_of_le (h : Near max x y) (hle : x ≤ max) : x = y := by
  obtain rfl | ⟨hx, -⟩ := h
  · rfl
  · exact absurd hle hx.not_ge

theorem Near.add (h : Near max x y) (hk : 0 ≤ k) : Near max (x + k) (y + k) := by
  obtain rfl | ⟨hx, hy⟩ := h
  · exact .inl rfl
  · exact .inr ⟨by linarith, by linarith⟩

theorem Near.min (h : Near max x y) (h' : Near max x' y') :
    Near max (min x x') (min y y') := by
  obtain rfl | ⟨hx, hy⟩ := h <;> obtain rfl | ⟨hx', hy'⟩ := h'
  · exact .inl rfl
  · obtain hle | hlt := le_or_gt x max
    · left
      rw [min_eq_left (hle.trans hx'.le), min_eq_left (hle.trans hy'.le)]
    · exact .inr ⟨lt_min hlt hx', lt_min hlt hy'⟩
  · obtain hle | hlt := le_or_gt x' max
    · left
      rw [min_eq_right (hle.trans hx.le), min_eq_right (hle.trans hy.le)]
    · exact .inr ⟨lt_min hx hlt, lt_min hy hlt⟩
  · exact .inr ⟨lt_min hx hx', lt_min hy hy'⟩

theorem Near.cell {c d : Char} {both above left both' above' left' : ℚ} (hboth : Near max both both')
    (habove : Near max above above') (hleft : Near max left left') :
    Near max (cell c d both above left) (cell c d both' above' left') := by
  by_cases h : c = d
  · subst h
    rwa [cell_self, cell_self]
  · rw [cell_of_ne h, cell_of_ne h]
    exact ((habove.add zero_le_one).min (hleft.add zero_le_one)).min
      (hboth.add (replacing_pos c d).le)

end Near

/-! ## The columns of the band -/

section Columns

variable {α : Type} [Cost α]

/-- The first column of the band in row `i`. -/
def bandFirst (max : α) (i : ℕ) : ℕ :=
  if Cost.atMost (Cost.ofNat i) max then 1 else Cost.ceil (Cost.ofNat i - max)

/-- The last column of the band in row `i` of a table with columns up to `width`. -/
def bandLast (max : α) (i width : ℕ) : ℕ :=
  if Cost.atMost (Cost.ofNat width) (max + Cost.ofNat i) then width
  else Cost.floor (max + Cost.ofNat i)

theorem nextRow_eq (max : α) (target : List Char) (i : ℕ) (c : Char) (previous : List α) :
    nextRow max target i c previous =
      Cost.ofNat i :: rowFrom (bandFirst max i) (bandLast max i target.length)
        (max + Cost.hundredth) c 1 (Cost.ofNat i) previous target :=
  rfl

end Columns

variable {max : ℚ}

theorem one_le_bandFirst (max : ℚ) (i : ℕ) : 1 ≤ bandFirst max i := by
  unfold bandFirst
  split
  case isTrue => exact le_refl 1
  case isFalse h =>
    rw [atMost_iff, ofNat_eq, not_le] at h
    exact Nat.ceil_pos.mpr (sub_pos.mpr h)

theorem bandLast_le (max : ℚ) (i width : ℕ) : bandLast max i width ≤ width := by
  unfold bandLast
  split
  case isTrue => exact le_refl width
  case isFalse h =>
    rw [atMost_iff, ofNat_eq, not_le] at h
    exact Nat.floor_le_of_le h.le

theorem lt_of_outside_band {i j width : ℕ} (hj : 0 < j) (hwidth : j ≤ width)
    (h : ¬ (bandFirst max i ≤ j ∧ j ≤ bandLast max i width)) : max < |(i : ℚ) - j| := by
  by_cases hfirst : bandFirst max i ≤ j
  · have hlast : bandLast max i width < j := by omega
    have hlt : max + i < j := by
      unfold bandLast at hlast
      split at hlast
      case isTrue => omega
      case isFalse => exact (Nat.floor_lt' (by omega)).mp hlast
    calc max < (j : ℚ) - i := by linarith
      _ ≤ |(i : ℚ) - j| := by rw [abs_sub_comm]; exact le_abs_self _
  · have hlt : (j : ℚ) < i - max := by
      unfold bandFirst at hfirst
      split at hfirst
      case isTrue => omega
      case isFalse => exact Nat.lt_ceil.mp (not_le.mp hfirst)
    calc max < (i : ℚ) - j := by linarith
      _ ≤ |(i : ℚ) - j| := le_abs_self _

/-! ## One row -/

/-- The row of the full table for `source`, from the entry of `seen` to that of the whole target.
Both texts are given backwards, but not the rest of the target. -/
def tableRow (source seen rest : List Char) : List ℚ :=
  rest.inits.map fun text => entry source (text.reverse ++ seen)

@[simp] theorem tableRow_nil (source seen : List Char) :
    tableRow source seen [] = [entry source seen] := rfl

@[simp] theorem tableRow_cons (source seen rest : List Char) (d : Char) :
    tableRow source seen (d :: rest) = entry source seen :: tableRow source (d :: seen) rest := by
  simp [tableRow]

theorem tableRow_eq_cons (source seen rest : List Char) :
    ∃ entries, tableRow source seen rest = entry source seen :: entries := by
  cases rest <;> simp

theorem mem_tableRow {source target : List Char} {x : ℚ} :
    x ∈ tableRow source [] target ↔ ∃ text, text <:+ target.reverse ∧ entry source text = x := by
  simp only [tableRow, List.mem_map, List.mem_inits, List.append_nil]
  constructor
  · rintro ⟨text, hprefix, rfl⟩
    exact ⟨text.reverse, List.reverse_suffix.mpr hprefix, rfl⟩
  · rintro ⟨text, hsuffix, rfl⟩
    exact ⟨text.reverse, by simpa using List.reverse_prefix.mpr hsuffix,
      by rw [List.reverse_reverse]⟩

theorem getLast?_tableRow (source : List Char) (rest : List Char) : ∀ seen,
    (tableRow source seen rest).getLast? = some (entry source (rest.reverse ++ seen)) := by
  induction rest with
  | nil => intro seen; rfl
  | cons d rest ih =>
    intro seen
    obtain ⟨entries, hentries⟩ := tableRow_eq_cons source (d :: seen) rest
    have hlast := ih (d :: seen)
    rw [hentries] at hlast
    rw [tableRow_cons, hentries, List.getLast?_cons_cons, hlast]
    simp

theorem lt_filler (max : ℚ) : max < max + Cost.hundredth := by
  rw [hundredth_eq]
  linarith

theorem near_rowFrom {filler : ℚ} (hfiller : max < filler) (c : Char) (source : List Char)
    {width : ℕ} (rest : List Char) : ∀ {seen : List Char} {left : ℚ} {previous : List ℚ},
    seen.length + rest.length = width → Near max left (entry (c :: source) seen) →
    List.Forall₂ (Near max) previous (tableRow source seen rest) →
    List.Forall₂ (Near max)
      (left :: rowFrom (bandFirst max (source.length + 1)) (bandLast max (source.length + 1) width)
        filler c (seen.length + 1) left previous rest)
      (tableRow (c :: source) seen rest) := by
  induction rest with
  | nil =>
    intro seen left previous _ hleft _
    rw [tableRow_nil]
    exact .cons hleft (by rw [rowFrom]; exact .nil; simp)
  | cons d rest ih =>
    intro seen left previous hwidth hleft hprevious
    obtain ⟨entries, hentries⟩ := tableRow_eq_cons source (d :: seen) rest
    rw [tableRow_cons, hentries] at hprevious
    obtain ⟨both, tail, hboth, htail, rfl⟩ := List.forall₂_cons_right_iff.mp hprevious
    obtain ⟨above, tail', habove, htail', rfl⟩ := List.forall₂_cons_right_iff.mp htail
    have hwidth' : (d :: seen).length + rest.length = width := by
      simp only [List.length_cons] at hwidth ⊢
      omega
    rw [tableRow_cons, rowFrom]
    refine .cons hleft (ih hwidth' ?_ (by rwa [hentries]))
    -- Outside the band, the filler exceeds the bound, and so does the entry that it stands for.
    split
    case isTrue => exact hboth.cell habove hleft
    case isFalse houtside =>
      have hcolumn : (d :: seen).length ≤ width := by omega
      have hfar := lt_of_outside_band (i := (c :: source).length) (Nat.succ_pos _) hcolumn
        (by simpa using houtside)
      exact .inr ⟨hfiller, hfar.trans_le (abs_length_sub_le_entry (c :: source) (d :: seen))⟩

theorem near_nextRow (c : Char) {source target : List Char} {previous : List ℚ}
    (h : List.Forall₂ (Near max) previous (tableRow source [] target)) :
    List.Forall₂ (Near max) (nextRow max target (source.length + 1) c previous)
      (tableRow (c :: source) [] target) := by
  have hleft : Near max (Cost.ofNat (source.length + 1)) (entry (c :: source) []) := by
    left
    rw [entry_nil_right]
    rfl
  exact near_rowFrom (lt_filler max) c source target (Nat.zero_add _) hleft h

/-! ## The search -/

theorem getLast?_of_forall₂ {row entries : List ℚ} (h : List.Forall₂ (Near max) row entries)
    {y : ℚ} (hy : entries.getLast? = some y) : ∃ x, row.getLast? = some x ∧ Near max x y := by
  have hreverse := List.forall₂_reverse_iff.mpr h
  rw [← List.head?_reverse] at hy ⊢
  obtain ⟨tail, htail⟩ := List.head?_eq_some_iff.mp hy
  rw [htail] at hreverse
  obtain ⟨x, tail', hx, -, hrow⟩ := List.forall₂_cons_right_iff.mp hreverse
  exact ⟨x, by rw [hrow]; rfl, hx⟩

/-- A row of the search that exceeds the bound everywhere stands for a row of the table that does. -/
theorem lt_of_forall₂ {row entries : List ℚ} (h : List.Forall₂ (Near max) row entries)
    (hrow : ∀ x ∈ row, max < x) : ∀ y ∈ entries, max < y := by
  induction h with
  | nil => simp
  | cons hxy _ ih =>
    rw [List.forall_mem_cons] at hrow ⊢
    exact ⟨not_le.mp fun hle => hrow.1.not_ge (hxy.le_iff.mpr hle), ih hrow.2⟩

/-- What is left to do after a row that is close enough finds the distance, if at most the bound. -/
theorem distanceFrom_eq_some_iff {target : List Char} {d : ℚ} (source : List Char) :
    ∀ {done : List Char} {row : List ℚ},
      List.Forall₂ (Near max) row (tableRow done [] target) →
      (distanceFrom max target done.length source row = some d ↔
        entry (source.reverse ++ done) target.reverse = d ∧ d ≤ max) := by
  induction source with
  | nil =>
    intro done row hrow
    obtain ⟨x, hlast, hx⟩ := getLast?_of_forall₂ hrow (getLast?_tableRow done target [])
    rw [List.append_nil] at hx
    rw [distanceFrom, hlast, Option.filter_eq_some_iff, Option.some_inj, atMost_iff]
    constructor
    · rintro ⟨rfl, hle⟩
      exact ⟨(hx.eq_of_le hle).symm, hle⟩
    · rintro ⟨rfl, hle⟩
      have hle' := hx.le_iff.mpr hle
      exact ⟨hx.eq_of_le hle', hle⟩
  | cons c source ih =>
    intro done row hrow
    have hnext := near_nextRow c hrow
    rw [distanceFrom, List.reverse_cons, List.append_assoc]
    split
    case isTrue => exact ih hnext
    case isFalse habove =>
      -- The row exceeds the bound everywhere, hence so do all rows to come and the distance.
      have hlt : ∀ x ∈ nextRow max target (done.length + 1) c row, max < x := by
        simpa using habove
      have htable : ∀ text, text <:+ target.reverse → max < entry (c :: done) text :=
        fun text htext => lt_of_forall₂ hnext hlt _ (mem_tableRow.mpr ⟨text, htext, rfl⟩)
      have hentry := lt_entry_append source.reverse target.reverse htable
      constructor
      · intro h
        cases h
      · rintro ⟨rfl, hle⟩
        exact absurd hle hentry.not_ge

/-- **The search finds the distance, if it is at most the bound.** -/
theorem distanceWithin_eq_some_iff (max : ℚ) (source target : List Char) (d : ℚ) :
    distanceWithin max source target = some d ↔ distance source target = d ∧ d ≤ max := by
  have hstart : (List.range (target.length + 1)).map (Cost.ofNat : ℕ → ℚ) = tableRow [] [] target := by
    refine List.ext_getElem (by simp [tableRow]) fun j hj _ => ?_
    rw [List.length_map, List.length_range] at hj
    have hlength : (target.take j).length = j := List.length_take_of_le (by omega)
    simp [tableRow, List.getElem_inits, entry_nil_left, hlength]
  have hnear : List.Forall₂ (Near max) (tableRow [] [] target) (tableRow [] [] target) :=
    List.forall₂_same.mpr fun x _ => .inl rfl
  have h := distanceFrom_eq_some_iff (d := d) source hnear
  rw [List.append_nil] at h
  rw [distanceWithin, hstart]
  exact h

end QuestScript.Spelling
