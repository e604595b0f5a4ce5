import QuestScript.Proofs.Spelling.Band

/-! # The search in two rows

The search needs no more than two rows: one is filled while the other is read, and then they change
places, so that a row is written over what is left of the row before last. Here it is told with every
access checked: it fails as soon as a row or the target is read or written where it has no column.

It never fails, and it finds what the search finds that makes a new list of each row
(`searchInPlace_eq`). What is left of an old row is no matter, because the columns are filled from the
left to the right and those to the left of the next one are always those of the finished row
(`Filled`). -/

namespace QuestScript.Spelling

section Program

variable {α : Type} [Cost α]

/-- Writes a number into a column. -/
def put (row : Array α) (j : ℕ) (x : α) : Option (Array α) :=
  if h : j < row.size then some (row.set j x h) else none

/-- Writes the filler into the columns from `first` on and before `stop`, as far as there are any. -/
def fill (first stop : ℕ) (filler : α) (row : Array α) : Array α :=
  row.mapIdx fun j x => if first ≤ j ∧ j < stop then filler else x

/-- Computes one column of the row of `c`. -/
def fillColumn (c : Char) (target : List Char) (previous : Array α) :
    (j : ℕ) → (current : Array α) → Option (α × Array α)
  | 0, _ => none
  | j + 1, current => do
    let d ← target[j]?
    let both ← previous[j]?
    let above ← previous[j + 1]?
    let left ← current[j]?
    let here := cell c d both above left
    let current ← put current (j + 1) here
    return (here, current)

/-- Computes `count` columns from `j` on and the least number of the row. -/
def fillBand (c : Char) (target : List Char) (previous : Array α) :
    (count j : ℕ) → (lowest : α) → (current : Array α) → Option (α × Array α)
  | 0, _, lowest, current => some (lowest, current)
  | count + 1, j, lowest, current => do
    let (here, current) ← fillColumn c target previous j current
    fillBand c target previous count (j + 1) (least lowest here) current

/-- Fills the row of the `i`-th character `c` and returns it with the least number in its band. -/
def fillRow (max : α) (target : List Char) (i : ℕ) (c : Char) (previous current : Array α) :
    Option (α × Array α) := do
  let first := bandFirst max i
  let last := bandLast max i target.length
  let filler := max + Cost.hundredth
  let current ← put current 0 (Cost.ofNat i)
  let current := fill 1 (min first (target.length + 1)) filler current
  let (lowest, current) ← fillBand c target previous (last + 1 - first) first (Cost.ofNat i) current
  return (lowest, fill (last + 1) current.size filler current)

/-- The distance after the rows up to `i`, the last of which is `previous`. -/
def searchFrom (max : α) (target : List Char) :
    (i : ℕ) → List Char → (previous current : Array α) → Option (Option α)
  | _, [], previous, _ => do
    let distance ← previous[target.length]?
    return (some distance).filter (Cost.atMost · max)
  | i, c :: source, previous, current => do
    let (lowest, filled) ← fillRow max target (i + 1) c previous current
    if Cost.atMost lowest max then searchFrom max target (i + 1) source filled previous
    else return none

/-- The distance from `source` to `target` if it is at most `max`, computed in two rows. The outer
option tells whether every access found its column. -/
def searchInPlace (max : α) (source target : List Char) : Option (Option α) :=
  searchFrom max target 0 source ((Array.range (target.length + 1)).map Cost.ofNat)
    (Array.replicate (target.length + 1) (Cost.ofNat 0))

end Program

/-! ## Rows -/

section Rows

variable {α : Type} [Cost α] {first last : ℕ} {filler : α} {c : Char}

theorem length_rowFrom : ∀ {target : List Char} {j : ℕ} {left : α} {previous : List α},
    previous.length = target.length + 1 →
    (rowFrom first last filler c j left previous target).length = target.length := by
  intro target
  induction target with
  | nil =>
    intro j left previous _
    simp [rowFrom]
  | cons d target ih =>
    intro j left previous hlength
    obtain _ | ⟨both, _ | ⟨above, previous⟩⟩ := previous
    · simp at hlength
    · simp at hlength
    · simp only [List.length_cons] at hlength
      rw [rowFrom, List.length_cons, List.length_cons, ih (by simp only [List.length_cons]; omega)]

theorem getElem?_rowFrom {d : Char} {both above left' : α} :
    ∀ {target : List Char} {j : ℕ} {left : α} {previous : List α} {k : ℕ},
    target[k]? = some d → previous[k]? = some both → previous[k + 1]? = some above →
    (left :: rowFrom first last filler c j left previous target)[k]? = some left' →
    (rowFrom first last filler c j left previous target)[k]? =
      some (if first ≤ j + k && j + k ≤ last then cell c d both above left' else filler) := by
  intro target
  induction target with
  | nil =>
    intro j left previous k hd
    simp at hd
  | cons e target ih =>
    intro j left previous k hd hboth habove hleft
    obtain _ | ⟨both', _ | ⟨above', previous⟩⟩ := previous
    · simp at hboth
    · simp at habove
    · cases k with
      | zero =>
        simp only [List.getElem?_cons_zero, List.getElem?_cons_succ, Option.some_inj]
          at hd hboth habove hleft
        subst hd hboth habove hleft
        simp [rowFrom]
      | succ k =>
        have h := ih hd hboth habove hleft
        rwa [Nat.succ_add_eq_add_succ] at h

end Rows

/-- What the columns of a row hold: the first its number, those outside the band the filler, and each
of those in the band what comes from the row before and from the column on its left. -/
structure IsRow (max : ℚ) (target : List Char) (i : ℕ) (c : Char) (previous : Array ℚ)
    (row : List ℚ) : Prop where
  /-- The row before has all its columns. -/
  size_previous : previous.size = target.length + 1
  /-- The row has all its columns. -/
  length_eq : row.length = target.length + 1
  /-- The first column. -/
  first_eq : row[0]? = some (Cost.ofNat i)
  /-- A column outside the band. -/
  outside_eq : ∀ {j : ℕ}, 0 < j → j ≤ target.length →
    ¬ (bandFirst max i ≤ j ∧ j ≤ bandLast max i target.length) →
    row[j]? = some (max + Cost.hundredth)
  /-- A column in the band. -/
  inside_eq : ∀ {j : ℕ} {d : Char} {both above left : ℚ}, target[j]? = some d →
    previous[j]? = some both → previous[j + 1]? = some above → row[j]? = some left →
    bandFirst max i ≤ j + 1 ∧ j + 1 ≤ bandLast max i target.length →
    row[j + 1]? = some (cell c d both above left)

theorem exists_getElem? {target : List Char} {previous : Array ℚ}
    (hprevious : previous.size = target.length + 1) {j : ℕ} (hj : j < target.length) :
    ∃ d both above,
      target[j]? = some d ∧ previous[j]? = some both ∧ previous[j + 1]? = some above :=
  ⟨_, _, _, List.getElem?_eq_getElem hj, Array.getElem?_eq_getElem (by omega),
    Array.getElem?_eq_getElem (by omega)⟩

theorem isRow_nextRow (max : ℚ) {target : List Char} (i : ℕ) (c : Char) {previous : Array ℚ}
    (hprevious : previous.size = target.length + 1) :
    IsRow max target i c previous (nextRow max target i c previous.toList) := by
  have hlength : (nextRow max target i c previous.toList).length = target.length + 1 := by
    rw [nextRow_eq, List.length_cons, length_rowFrom (by simpa using hprevious)]
  have hcolumn : ∀ {j : ℕ} {d : Char} {both above left : ℚ}, target[j]? = some d →
      previous[j]? = some both → previous[j + 1]? = some above →
      (nextRow max target i c previous.toList)[j]? = some left →
      (nextRow max target i c previous.toList)[j + 1]? =
        some (if bandFirst max i ≤ j + 1 && j + 1 ≤ bandLast max i target.length then
          cell c d both above left else max + Cost.hundredth) := by
    intro j d both above left hd hboth habove hleft
    rw [nextRow_eq] at hleft ⊢
    rw [List.getElem?_cons_succ, Nat.add_comm j 1]
    exact getElem?_rowFrom hd (by simpa using hboth) (by simpa using habove) hleft
  refine ⟨hprevious, hlength, ?first, ?outside, ?inside⟩
  case first =>
    rw [nextRow_eq]
    rfl
  case outside =>
    intro j hj hwidth houtside
    obtain ⟨j, rfl⟩ := Nat.exists_eq_succ_of_ne_zero hj.ne'
    obtain ⟨d, both, above, hd, hboth, habove⟩ := exists_getElem? hprevious hwidth
    rw [hcolumn hd hboth habove (List.getElem?_eq_getElem (by omega)),
      if_neg (by simpa using houtside)]
  case inside =>
    intro j d both above left hd hboth habove hleft hinside
    rw [hcolumn hd hboth habove hleft, if_pos (by simpa using hinside)]

/-! ## A row under construction -/

/-- The columns before `j` are those of the finished row. -/
structure Filled (row : List ℚ) (current : Array ℚ) (j : ℕ) : Prop where
  /-- The row has all its columns. -/
  size_eq : current.size = row.length
  /-- The columns before `j` are finished. -/
  getElem?_eq : ∀ k < j, current[k]? = row[k]?

/-- Of the columns before `j`, one is at most the bound if the number is. -/
def Lowest (max : ℚ) (row : List ℚ) (j : ℕ) (lowest : ℚ) : Prop :=
  lowest ≤ max ↔ ∃ k < j, ∃ x, row[k]? = some x ∧ x ≤ max

section Filled

variable {max x lowest : ℚ} {row : List ℚ} {current : Array ℚ} {j j' : ℕ}

theorem Filled.put (h : Filled row current j) (hx : row[j]? = some x) :
    ∃ current', put current j x = some current' ∧ Filled row current' (j + 1) := by
  obtain ⟨hj, rfl⟩ := List.getElem?_eq_some_iff.mp hx
  have hsize := h.size_eq
  refine ⟨current.set j row[j] (by omega), dif_pos _, by simpa using hsize, fun k hk => ?_⟩
  rw [Array.getElem?_set]
  split
  case isTrue heq =>
    subst heq
    exact hx.symm
  case isFalse hne => exact h.getElem?_eq k (by omega)

theorem Filled.toList_eq (h : Filled row current row.length) : current.toList = row := by
  have hsize := h.size_eq
  refine List.ext_getElem (by simpa using hsize) fun k hk hk' => ?_
  have hk := h.getElem?_eq k hk'
  rw [List.getElem?_eq_getElem hk', Array.getElem?_eq_getElem (by omega), Option.some_inj] at hk
  rw [Array.getElem_toList]
  exact hk

theorem Lowest.least (h : Lowest max row j lowest) (hx : row[j]? = some x) :
    Lowest max row (j + 1) (least lowest x) := by
  unfold Lowest at h ⊢
  rw [least_eq, min_le_iff, h]
  constructor
  · rintro (⟨k, hk, y, hy, hle⟩ | hle)
    · exact ⟨k, by omega, y, hy, hle⟩
    · exact ⟨j, by omega, x, hx, hle⟩
  · rintro ⟨k, hk, y, hy, hle⟩
    obtain hlt | rfl := Nat.lt_succ_iff_lt_or_eq.mp hk
    · exact .inl ⟨k, hlt, y, hy, hle⟩
    · right
      rw [hx, Option.some_inj] at hy
      rwa [hy]

/-- Columns that exceed the bound do not matter to the least number. -/
theorem Lowest.of_exceed (h : Lowest max row j lowest)
    (hlt : ∀ k x, ¬ (k < j ↔ k < j') → row[k]? = some x → max < x) : Lowest max row j' lowest := by
  have hcolumn : ∀ k x, row[k]? = some x → x ≤ max → (k < j ↔ k < j') := by
    intro k x hx hle
    by_contra hk
    exact hle.not_gt (hlt k x hk hx)
  unfold Lowest at h ⊢
  rw [h]
  constructor
  · rintro ⟨k, hk, x, hx, hle⟩
    exact ⟨k, (hcolumn k x hx hle).mp hk, x, hx, hle⟩
  · rintro ⟨k, hk, x, hx, hle⟩
    exact ⟨k, (hcolumn k x hx hle).mpr hk, x, hx, hle⟩

theorem Lowest.iff_exists_mem (h : Lowest max row row.length lowest) :
    lowest ≤ max ↔ ∃ x ∈ row, x ≤ max := by
  unfold Lowest at h
  rw [h]
  constructor
  · rintro ⟨k, -, x, hx, hle⟩
    exact ⟨x, List.mem_of_getElem? hx, hle⟩
  · rintro ⟨x, hx, hle⟩
    obtain ⟨k, hk⟩ := List.mem_iff_getElem?.mp hx
    exact ⟨k, (List.getElem?_eq_some_iff.mp hk).1, x, hk, hle⟩

end Filled

/-! ## The row in place -/

namespace IsRow

variable {max : ℚ} {target : List Char} {i : ℕ} {c : Char} {previous current : Array ℚ}
  {row : List ℚ}

theorem lt_of_outside (h : IsRow max target i c previous row) {j : ℕ} {x : ℚ} (hj : 0 < j)
    (houtside : ¬ (bandFirst max i ≤ j ∧ j ≤ bandLast max i target.length))
    (hx : row[j]? = some x) : max < x := by
  have hlength := h.length_eq
  obtain ⟨hlt, -⟩ := List.getElem?_eq_some_iff.mp hx
  rw [h.outside_eq hj (by omega) houtside, Option.some_inj] at hx
  rw [← hx]
  exact lt_filler max

theorem fillColumn (h : IsRow max target i c previous row) {j : ℕ}
    (hinside : bandFirst max i ≤ j + 1 ∧ j + 1 ≤ bandLast max i target.length)
    (hcurrent : Filled row current (j + 1)) :
    ∃ here current', fillColumn c target previous (j + 1) current = some (here, current') ∧
      row[j + 1]? = some here ∧ Filled row current' (j + 2) := by
  have hlength := h.length_eq
  have hwidth : j < target.length := hinside.2.trans (bandLast_le max i target.length)
  obtain ⟨d, both, above, hd, hboth, habove⟩ := exists_getElem? h.size_previous hwidth
  have hleft : row[j]? = some row[j] := List.getElem?_eq_getElem (by omega)
  have hread : current[j]? = some row[j] := (hcurrent.getElem?_eq j (by omega)).trans hleft
  have hhere := h.inside_eq hd hboth habove hleft hinside
  obtain ⟨current', hput, hfilled⟩ := hcurrent.put hhere
  refine ⟨_, current', ?_, hhere, hfilled⟩
  simp [Spelling.fillColumn, hd, hboth, habove, hread, hput]

theorem fillBand (h : IsRow max target i c previous row) (count : ℕ) :
    ∀ {j : ℕ} {lowest : ℚ} {current : Array ℚ}, bandFirst max i ≤ j →
    (count ≠ 0 → j + count ≤ bandLast max i target.length + 1) →
    Filled row current j → Lowest max row j lowest →
    ∃ lowest' current',
      fillBand c target previous count j lowest current = some (lowest', current') ∧
      Filled row current' (j + count) ∧ Lowest max row (j + count) lowest' := by
  induction count with
  | zero =>
    intro j lowest current _ _ hcurrent hlowest
    exact ⟨lowest, current, rfl, hcurrent, hlowest⟩
  | succ count ih =>
    intro j lowest current hfirst hlast hcurrent hlowest
    have hone := one_le_bandFirst max i
    have hlast := hlast (by omega)
    obtain ⟨k, rfl⟩ : ∃ k, j = k + 1 := ⟨j - 1, by omega⟩
    obtain ⟨here, current', hcolumn, hhere, hfilled⟩ := h.fillColumn (by omega) hcurrent
    obtain ⟨lowest', current'', hband, hfilled', hlowest'⟩ :=
      ih (by omega) (by omega) hfilled (hlowest.least hhere)
    have hcount : k + 2 + count = k + 1 + (count + 1) := by omega
    rw [hcount] at hfilled' hlowest'
    refine ⟨lowest', current'', ?_, hfilled', hlowest'⟩
    rw [Spelling.fillBand, hcolumn]
    exact hband

/-- Columns outside the band may be filled at any time. -/
theorem fill (h : IsRow max target i c previous row) {j j' first stop : ℕ}
    (hcurrent : Filled row current j)
    (houtside : ∀ k, first ≤ k → k < stop → 0 < k ∧
      ¬ (bandFirst max i ≤ k ∧ k ≤ bandLast max i target.length))
    (hcover : ∀ k < j', k ≤ target.length → k < j ∨ (first ≤ k ∧ k < stop)) :
    Filled row (fill first stop (max + Cost.hundredth) current) j' := by
  have hsize := hcurrent.size_eq
  have hlength := h.length_eq
  refine ⟨by simpa [Spelling.fill] using hsize, fun k hk => ?_⟩
  rw [Spelling.fill, Array.getElem?_mapIdx]
  -- A column is filled, or it was finished before, or there is none.
  by_cases hwidth : k ≤ target.length
  · by_cases hin : first ≤ k ∧ k < stop
    · obtain ⟨hpos, hband⟩ := houtside k hin.1 hin.2
      rw [h.outside_eq hpos hwidth hband, Array.getElem?_eq_getElem (by omega), Option.map_some,
        if_pos hin]
    · have hkj : k < j := (hcover k hk hwidth).resolve_right hin
      simp only [if_neg hin, Option.map_id']
      exact hcurrent.getElem?_eq k hkj
  · rw [Array.getElem?_eq_none (by omega), List.getElem?_eq_none (by omega), Option.map_none]

/-- **A row is filled in place**, whatever stood in it before. -/
theorem fillRow (h : IsRow max target i c previous row) (hcurrent : current.size = target.length + 1) :
    ∃ lowest filled, fillRow max target i c previous current = some (lowest, filled) ∧
      filled.toList = row ∧ (lowest ≤ max ↔ ∃ x ∈ row, x ≤ max) := by
  have hone := one_le_bandFirst max i
  have hlength := h.length_eq
  -- The parts of the row are finished from the left to the right: its number, what stands before the
  -- band, the band and the rest.
  have hstart : Filled row current 0 := ⟨by omega, fun k hk => absurd hk (by omega)⟩
  obtain ⟨written, hput, hwritten⟩ := hstart.put h.first_eq
  have hbefore : Filled row
      (Spelling.fill 1 (min (bandFirst max i) (target.length + 1)) (max + Cost.hundredth) written)
      (bandFirst max i) :=
    h.fill hwritten (fun k hk hstop => by omega) (fun k hk hwidth => by omega)
  have hnumber : Lowest max row 1 (Cost.ofNat i) := by
    constructor
    · intro hle
      exact ⟨0, by omega, _, h.first_eq, hle⟩
    · rintro ⟨k, hk, x, hx, hle⟩
      obtain rfl : k = 0 := by omega
      rw [h.first_eq, Option.some_inj] at hx
      rwa [hx]
  have hlowest : Lowest max row (bandFirst max i) (Cost.ofNat i) :=
    hnumber.of_exceed fun k x hk hx => h.lt_of_outside (by omega) (by omega) hx
  obtain ⟨lowest, banded, hband, hfilled, hlowest⟩ := h.fillBand
    (bandLast max i target.length + 1 - bandFirst max i) le_rfl (by omega) hbefore hlowest
  have hsize := hfilled.size_eq
  have hafter : Filled row
      (Spelling.fill (bandLast max i target.length + 1) banded.size (max + Cost.hundredth) banded)
      row.length :=
    h.fill hfilled (fun k hk hstop => by omega) (fun k hk hwidth => by omega)
  refine ⟨lowest, _, ?_, hafter.toList_eq, ?_⟩
  · simp only [Spelling.fillRow, hput, hband, Option.bind_eq_bind, Option.bind_some]
    rfl
  · refine Lowest.iff_exists_mem (hlowest.of_exceed fun k x hk hx => ?_)
    have hlt := (List.getElem?_eq_some_iff.mp hx).1
    exact h.lt_of_outside (by omega) (by omega) hx

end IsRow

/-! ## The search in place -/

theorem searchFrom_eq {max : ℚ} {target : List Char} (source : List Char) :
    ∀ {i : ℕ} {previous current : Array ℚ}, previous.size = target.length + 1 →
      current.size = target.length + 1 →
      searchFrom max target i source previous current =
        some (distanceFrom max target i source previous.toList) := by
  induction source with
  | nil =>
    intro i previous current hprevious _
    have hlast : previous.toList.getLast? = previous[target.length]? := by
      rw [List.getLast?_eq_getElem?, Array.length_toList, hprevious]
      simp
    rw [distanceFrom, searchFrom, hlast, Array.getElem?_eq_getElem (by omega)]
    rfl
  | cons c source ih =>
    intro i previous current hprevious hcurrent
    have h := isRow_nextRow max (i + 1) c hprevious
    obtain ⟨lowest, filled, hfill, hrow, hlowest⟩ := h.fillRow hcurrent
    have hsize : filled.size = target.length + 1 := by
      rw [← Array.length_toList, hrow, h.length_eq]
    have hany : Cost.atMost lowest max =
        (nextRow max target (i + 1) c previous.toList).any (Cost.atMost · max) := by
      rw [Bool.eq_iff_iff, atMost_iff, hlowest, List.any_eq_true]
      simp only [atMost_iff]
    have hrest := ih (i := i + 1) hsize hprevious
    rw [hrow] at hrest
    simp only [searchFrom, hfill, Option.bind_eq_bind, Option.bind_some, hany, hrest, distanceFrom]
    split <;> rfl

/-- **The search in two rows fails at no access and finds what the search finds.** -/
theorem searchInPlace_eq (max : ℚ) (source target : List Char) :
    searchInPlace max source target = some (distanceWithin max source target) := by
  rw [searchInPlace, searchFrom_eq source (by simp) (by simp), distanceWithin]
  simp

end QuestScript.Spelling
