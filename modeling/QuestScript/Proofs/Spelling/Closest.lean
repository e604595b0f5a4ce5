import QuestScript.Proofs.Spelling.InPlace
import Mathlib.Algebra.Order.Floor.Semifield
import Mathlib.Data.List.MinMax

/-! # The closest candidate

A name that nothing is called is compared with every candidate that is worth it, and each candidate
that is chosen tightens the bound for the next ones. What remains is the first of the candidates of
least distance among those that may be meant at all (`IsMeant`): a later candidate has to undercut the
chosen one by a tenth, which it does just if its distance is less, since distances are whole numbers
of tenths. -/

namespace QuestScript.Spelling

/-- The distance of a candidate from a name. -/
def distanceTo (name candidate : String) : ℚ := distance name.toList candidate.toList

/-- The candidate may be meant by the name: it is another text, of similar length, and close enough
to it. A candidate of one or two characters has to be the name but for the case of its letters. -/
structure IsMeant (name candidate : String) : Prop where
  /-- The candidate is another text. -/
  ne : candidate ≠ name
  /-- The lengths differ by at most two, or about a third of the name. -/
  length_le : ((candidate.toList.length : ℤ) - name.toList.length).natAbs ≤
    max 2 ⌊(34 / 100 : ℚ) * name.toList.length⌋₊
  /-- A short candidate differs only in letter case. -/
  length_or_case : 3 ≤ candidate.toList.length ∨ lowercase candidate = lowercase name
  /-- The distance is less than one more than two fifths of the name. -/
  distance_le : distanceTo name candidate ≤
    ⌊(4 / 10 : ℚ) * name.toList.length⌋₊ + 1 - 1 / 10

/-- The number of steps that a fraction of a length amounts to. -/
theorem floor_fraction (a b n : ℕ) : ⌊(a / b : ℚ) * n⌋₊ = n * a / b := by
  rw [div_mul_eq_mul_div, ← Nat.cast_mul, Nat.floor_div_eq_div, Nat.mul_comm]

theorem isEligible_iff (name candidate : String) : isEligible name candidate = true ↔
    candidate ≠ name ∧
    ((candidate.toList.length : ℤ) - name.toList.length).natAbs ≤
      max 2 ⌊(34 / 100 : ℚ) * name.toList.length⌋₊ ∧
    (3 ≤ candidate.toList.length ∨ lowercase candidate = lowercase name) := by
  have hfloor := floor_fraction 34 100 name.toList.length
  push_cast at hfloor
  rw [hfloor]
  have hlength : similarLength name.toList candidate.toList = true ↔
      ((candidate.toList.length : ℤ) - name.toList.length).natAbs ≤
        max 2 (name.toList.length * 34 / 100) := by
    simp only [similarLength, decide_eq_true_eq]
    omega
  simp only [isEligible, Bool.and_eq_true, Bool.or_eq_true, hlength, bne_iff_ne, beq_iff_eq,
    decide_eq_true_eq]
  tauto

theorem isMeant_iff (name candidate : String) : IsMeant name candidate ↔
    isEligible name candidate = true ∧ distanceTo name candidate ≤
      ⌊(4 / 10 : ℚ) * name.toList.length⌋₊ + 1 - 1 / 10 := by
  rw [isEligible_iff]
  constructor
  · rintro ⟨hne, hlength, hcase, hdistance⟩
    exact ⟨⟨hne, hlength, hcase⟩, hdistance⟩
  · rintro ⟨⟨hne, hlength, hcase⟩, hdistance⟩
    exact ⟨hne, hlength, hcase, hdistance⟩

instance (name candidate : String) : Decidable (IsMeant name candidate) :=
  decidable_of_iff _ (isMeant_iff name candidate).symm

/-- One candidate: it is chosen if it is worth comparing and undercuts the bound by a tenth. -/
theorem consider_eq (name : String) (best : Best ℚ) (candidate : String) :
    consider name best candidate =
      if isEligible name candidate = true ∧ distanceTo name candidate ≤ best.bound - 1 / 10 then
        ⟨distanceTo name candidate, some candidate⟩
      else best := by
  have hbound : best.bound - Cost.tenth = best.bound - 1 / 10 := by
    rw [tenth_eq]
  unfold consider distanceTo
  rw [hbound]
  by_cases heligible : isEligible name candidate = true
  · rw [if_pos heligible]
    cases h : distanceWithin (best.bound - 1 / 10) name.toList candidate.toList with
    | some d =>
      obtain ⟨hd, hle⟩ := (distanceWithin_eq_some_iff _ _ _ _).mp h
      rw [if_pos ⟨heligible, hd.trans_le hle⟩, hd]
    | none =>
      refine (if_neg fun hle => ?_).symm
      rw [(distanceWithin_eq_some_iff _ _ _ _).mpr ⟨rfl, hle.2⟩] at h
      cases h
  · rw [if_neg heligible, if_neg fun h => heligible h.1]

/-- The state of the search after some candidates, where `found` is the choice among those of them
that may be meant. -/
structure Follows (name : String) (best : Best ℚ) (found : Option String) : Prop where
  /-- The chosen candidate is the one found. -/
  candidate_eq : best.candidate = found
  /-- The bound is the distance of the candidate found. -/
  bound_eq : best.bound = found.elim (⌊(4 / 10 : ℚ) * name.toList.length⌋₊ + 1 : ℚ) (distanceTo name)
  /-- The candidate found may be meant. -/
  isMeant : ∀ chosen ∈ found, IsMeant name chosen

section Follows

variable {name : String} {best : Best ℚ} {found : Option String}

theorem Follows.undercuts_iff (h : Follows name best found) (candidate : String) :
    (isEligible name candidate = true ∧ distanceTo name candidate ≤ best.bound - 1 / 10) ↔
      IsMeant name candidate ∧
        ∀ chosen ∈ found, distanceTo name candidate < distanceTo name chosen := by
  have hbound := h.bound_eq
  cases found with
  | none =>
    rw [Option.elim_none] at hbound
    rw [hbound, isMeant_iff]
    simp
  | some chosen =>
    have hchosen := (h.isMeant chosen rfl).distance_le
    have htenth := (tenths_entry name.toList.reverse candidate.toList.reverse).le_sub_tenth_iff
      (tenths_entry name.toList.reverse chosen.toList.reverse)
    rw [Option.elim_some] at hbound
    simp only [Option.mem_some_iff, forall_eq']
    rw [hbound, isMeant_iff]
    constructor
    · rintro ⟨heligible, hle⟩
      exact ⟨⟨heligible, by linarith⟩, htenth.mp hle⟩
    · rintro ⟨⟨heligible, -⟩, hlt⟩
      exact ⟨heligible, htenth.mpr hlt⟩

theorem argAux_eq (found : Option String) (candidate : String) (f : String → ℚ) :
    List.argAux (fun b c => f b < f c) found candidate =
      if ∀ chosen ∈ found, f candidate < f chosen then some candidate else found := by
  cases found with
  | none => simp [List.argAux]
  | some chosen => simp [List.argAux]

theorem Follows.step (h : Follows name best found) (candidate : String) :
    Follows name (consider name best candidate) (if IsMeant name candidate then
      List.argAux (fun b c => distanceTo name b < distanceTo name c) found candidate
    else found) := by
  have hundercuts := h.undercuts_iff candidate
  rw [consider_eq]
  by_cases hmeant : IsMeant name candidate
  · rw [if_pos hmeant, argAux_eq]
    by_cases hcloser : ∀ chosen ∈ found, distanceTo name candidate < distanceTo name chosen
    · rw [if_pos (hundercuts.mpr ⟨hmeant, hcloser⟩), if_pos hcloser]
      refine ⟨rfl, rfl, fun chosen hchosen => ?_⟩
      rw [Option.mem_some_iff] at hchosen
      rwa [← hchosen]
    · rw [if_neg fun hle => hcloser (hundercuts.mp hle).2, if_neg hcloser]
      exact h
  · rw [if_neg hmeant, if_neg fun hle => hmeant (hundercuts.mp hle).1]
    exact h

theorem Follows.run (candidates : List String) :
    ∀ {best : Best ℚ} {found : Option String}, Follows name best found →
      Follows name (candidates.foldl (consider name) best)
        ((candidates.filter fun candidate => IsMeant name candidate).foldl
          (List.argAux fun b c => distanceTo name b < distanceTo name c) found) := by
  induction candidates with
  | nil =>
    intro best found h
    exact h
  | cons candidate candidates ih =>
    intro best found h
    have hnext := h.step candidate
    rw [List.foldl_cons, List.filter_cons]
    by_cases hmeant : IsMeant name candidate
    · rw [if_pos hmeant] at hnext
      rw [if_pos (decide_eq_true hmeant), List.foldl_cons]
      exact ih hnext
    · rw [if_neg hmeant] at hnext
      rw [if_neg (by simpa using hmeant)]
      exact ih hnext

end Follows

/-- **The closest candidate is the first of least distance among those that may be meant.** -/
theorem closest_eq_argmin (name : String) (candidates : List String) :
    closest ℚ name candidates =
      (candidates.filter fun candidate => IsMeant name candidate).argmin (distanceTo name) := by
  have hfloor := floor_fraction 4 10 name.toList.length
  have hfifths : name.toList.length * 4 / 10 = name.toList.length * 2 / 5 := by omega
  have hstart : Follows name ⟨Cost.ofNat (name.toList.length * 2 / 5 + 1), none⟩ none := by
    refine ⟨rfl, ?_, fun chosen hchosen => ?_⟩
    · push_cast at hfloor
      rw [Option.elim_none, hfloor, hfifths, ofNat_eq]
      push_cast
      rfl
    · cases hchosen
  exact (hstart.run candidates).candidate_eq

-- Of several candidates of least distance, the first is chosen.
example : closest ℚ "Rset" ["Reset", "Rest"] = some "Reset" := by decide +kernel

/-- **The banded search in two rows is exact, and so is the choice of a candidate.** Within any bound,
it accesses no column that does not exist and finds the distance of the full table if that is at most
the bound. The candidate closest to a name is the first of least distance among those that may be
meant by it. -/
theorem banded_search_exact :
    (∀ (max : ℚ) (source target : List Char),
      searchInPlace max source target = some (distanceWithin max source target) ∧
      ∀ d, distanceWithin max source target = some d ↔ distance source target = d ∧ d ≤ max) ∧
    ∀ (name : String) (candidates : List String), closest ℚ name candidates =
      (candidates.filter fun candidate => IsMeant name candidate).argmin (distanceTo name) :=
  ⟨fun max source target =>
    ⟨searchInPlace_eq max source target, distanceWithin_eq_some_iff max source target⟩,
    closest_eq_argmin⟩

end QuestScript.Spelling
