import QuestScript.Text.Ascii
import QuestScript.Text.Lowercase

/-! # Letter case of ASCII texts

On ASCII texts all the ways to ignore letter case agree: the lowercase of a text is that of its
characters one by one (`toList_lowercase`), and two names match if they are the same word in some
letter case (`namesMatch_eq_sameWord`, `lowercase_eq_iff`). To compare an ASCII name with any text the
lowercase of the whole texts will do (`lowercase_beq`). Of other characters only the capital sigma is
lowered by what stands around it, so a text without one is lowered to the start of whatever it starts
(`sublist_lowercase_append`). -/

namespace QuestScript

/-- All characters are ASCII. -/
def IsAscii (text : List Char) : Prop := ∀ c ∈ text, c.toNat < 0x80

instance (text : List Char) : Decidable (IsAscii text) :=
  decidable_of_iff (text.all (Nat.blt ·.toNat 0x80) = true) (by simp [IsAscii, Nat.blt_eq])

theorem isAscii_cons {c : Char} {text : List Char} :
    IsAscii (c :: text) ↔ c.toNat < 0x80 ∧ IsAscii text :=
  List.forall_mem_cons

namespace LetterCase

theorem lower_of_ascii {c : Char} (h : c.toNat < 0x80) : lower c = [c.toLower] := if_pos h

theorem lowerAfter_of_notMem (before : List Char) {text : List Char} (h : 'Σ' ∉ text) :
    lowerAfter before text = text.flatMap lower := by
  induction text generalizing before with
  | nil => rfl
  | cons c text ih =>
    obtain ⟨hc, htext⟩ := List.ne_and_not_mem_of_not_mem_cons h
    rw [lowerAfter, if_neg hc.symm, ih _ htext, List.flatMap_cons]

theorem lowerAfter_append (before : List Char) {text : List Char} (h : 'Σ' ∉ text)
    (more : List Char) : lowerAfter before (text ++ more) =
      lowerAfter before text ++ lowerAfter (text.reverse ++ before) more := by
  induction text generalizing before with
  | nil => rfl
  | cons c text ih =>
    obtain ⟨hc, htext⟩ := List.ne_and_not_mem_of_not_mem_cons h
    rw [List.cons_append, lowerAfter, lowerAfter, if_neg hc.symm, if_neg hc.symm, ih _ htext,
      List.reverse_cons, List.append_assoc, List.append_assoc, List.singleton_append]

/-- A capital sigma is lowered to one of the two small ones, neither of which is ASCII. -/
theorem not_isAscii_lowerAfter (before : List Char) {text : List Char} (h : 'Σ' ∈ text) :
    ¬ IsAscii (lowerAfter before text) := by
  induction text generalizing before with
  | nil => cases h
  | cons c text ih =>
    intro hascii
    rw [lowerAfter] at hascii
    by_cases hc : c = 'Σ'
    · rw [if_pos hc] at hascii
      have hsigma := hascii _ (List.mem_append_left _ List.mem_cons_self)
      unfold lowerSigma at hsigma
      split at hsigma <;> revert hsigma <;> decide
    · refine ih (c :: before) ((List.mem_cons.mp h).resolve_left (Ne.symm hc)) fun d hd => ?_
      exact hascii d (List.mem_append_right _ hd)

theorem not_isAscii_flatMap_lower {text : List Char} (h : 'Σ' ∈ text) :
    ¬ IsAscii (text.flatMap lower) := fun hascii => by
  have hsigma := hascii 'σ' (List.mem_flatMap.mpr ⟨_, h, by decide +kernel⟩)
  revert hsigma
  decide

theorem flatMap_lower_of_ascii {text : List Char} (h : IsAscii text) :
    text.flatMap lower = text.map Char.toLower := by
  induction text with
  | nil => rfl
  | cons c text ih =>
    obtain ⟨hc, htext⟩ := isAscii_cons.mp h
    rw [List.flatMap_cons, lower_of_ascii hc, ih htext]
    rfl

theorem notMem_of_isAscii {text : List Char} (h : IsAscii text) : 'Σ' ∉ text := fun hsigma => by
  have hascii := h _ hsigma
  revert hascii
  decide

theorem lowerAfter_of_ascii (before : List Char) {text : List Char} (h : IsAscii text) :
    lowerAfter before text = text.map Char.toLower := by
  rw [lowerAfter_of_notMem before (notMem_of_isAscii h), flatMap_lower_of_ascii h]

end LetterCase

theorem sublist_lowercase_append {text : String} (h : 'Σ' ∉ text.toList) (more : String) :
    (lowercase text).toList.Sublist (lowercase (text ++ more)).toList := by
  rw [lowercase, lowercase, String.toList_ofList, String.toList_ofList, String.toList_append,
    LetterCase.lowerAfter_append [] h]
  exact List.sublist_append_left _ _

theorem toList_lowercase {s : String} (h : IsAscii s.toList) :
    (lowercase s).toList = s.toList.map Char.toLower := by
  rw [lowercase, String.toList_ofList, LetterCase.lowerAfter_of_ascii [] h]

namespace Ascii

theorem sameWord_iff {a b : List Char} :
    sameWord a b = true ↔ a.map Char.toLower = b.map Char.toLower := by
  rw [sameWord, beq_iff_eq]

/-- The capitals of ASCII are 32 places before the small letters, and nothing else changes. -/
theorem toLower_cases (c : Char) :
    (65 ≤ c.toNat ∧ c.toNat ≤ 90) ∧ c.toLower.toNat = c.toNat + 32 ∨
      ¬ (65 ≤ c.toNat ∧ c.toNat ≤ 90) ∧ c.toLower = c := by
  unfold Char.toLower
  split
  · rename_i hupper
    have hle : 65 ≤ c.toNat ∧ c.toNat ≤ 90 :=
      ⟨UInt32.le_iff_toNat_le.mp hupper.1, UInt32.le_iff_toNat_le.mp hupper.2⟩
    refine .inl ⟨hle, ?_⟩
    show (c.val + 32).toNat = c.val.toNat + 32
    rw [UInt32.toNat_add]
    have h32 : (32 : UInt32).toNat = 32 := rfl
    have hval : c.val.toNat ≤ 90 := hle.2
    omega
  · rename_i hupper
    refine .inr ⟨fun hle => hupper ?_, rfl⟩
    exact ⟨UInt32.le_iff_toNat_le.mpr hle.1, UInt32.le_iff_toNat_le.mpr hle.2⟩

theorem toLower_toLower (c : Char) : c.toLower.toLower = c.toLower := by
  rcases toLower_cases c.toLower with ⟨hupper, -⟩ | ⟨-, h⟩
  · rcases toLower_cases c with ⟨hle, h⟩ | ⟨hle, h⟩
    · omega
    · rw [h] at hupper
      exact absurd hupper hle
  · exact h

theorem toNat_lt_of_toLower {c : Char} (h : c.toLower.toNat < 0x80) : c.toNat < 0x80 := by
  rcases toLower_cases c with ⟨hle, -⟩ | ⟨-, hsame⟩
  · omega
  · rwa [hsame] at h

theorem toNat_toLower_lt {c : Char} (h : c.toNat < 0x80) : c.toLower.toNat < 0x80 := by
  rcases toLower_cases c with ⟨hle, hlower⟩ | ⟨-, hsame⟩
  · omega
  · rwa [hsame]

theorem isAscii_map_toLower {text : List Char} (h : IsAscii text) : IsAscii (text.map Char.toLower) := by
  intro c hc
  obtain ⟨d, hd, rfl⟩ := List.mem_map.mp hc
  exact toNat_toLower_lt (h d hd)

theorem isAscii_of_map_toLower {text : List Char} (h : IsAscii (text.map Char.toLower)) :
    IsAscii text :=
  fun _ hc => toNat_lt_of_toLower (h _ (List.mem_map_of_mem hc))

theorem isAscii_of_sameWord {a b : List Char} (h : sameWord a b = true) (ha : IsAscii a) :
    IsAscii b := by
  have hmap := isAscii_map_toLower ha
  rw [sameWord_iff.mp h] at hmap
  exact isAscii_of_map_toLower hmap

end Ascii

/-! ### Names that match -/

theorem namesMatch_iff {v w : String} : namesMatch v w = true ↔
    v.toList.flatMap LetterCase.lower = w.toList.flatMap LetterCase.lower := by
  rw [namesMatch, beq_iff_eq]

theorem namesMatch_self (v : String) : namesMatch v v = true := namesMatch_iff.mpr rfl

theorem namesMatch_comm (v w : String) : namesMatch v w = namesMatch w v := by
  rw [Bool.eq_iff_iff, namesMatch_iff, namesMatch_iff]
  exact eq_comm

theorem namesMatch_congr {u v w : String} (h : namesMatch u v = true) :
    namesMatch u w = namesMatch v w := by
  rw [Bool.eq_iff_iff, namesMatch_iff, namesMatch_iff, namesMatch_iff.mp h]

theorem namesMatch_eq_sameWord {a b : String} (ha : IsAscii a.toList) (hb : IsAscii b.toList) :
    namesMatch a b = Ascii.sameWord a.toList b.toList := by
  rw [namesMatch, LetterCase.flatMap_lower_of_ascii ha, LetterCase.flatMap_lower_of_ascii hb]
  rfl

theorem lowercase_eq_iff {a b : String} (ha : IsAscii a.toList) (hb : IsAscii b.toList) :
    lowercase a = lowercase b ↔ Ascii.sameWord a.toList b.toList = true := by
  rw [← String.toList_inj, toList_lowercase ha, toList_lowercase hb, Ascii.sameWord_iff]

/-- **An ASCII name is found by the lowercase of the whole text** exactly if it matches the text
character by character. The two differ on a capital sigma only, and with one a text has no ASCII
lowercase of either kind. -/
theorem lowercase_beq {v w : String} (hv : IsAscii v.toList) :
    (lowercase v == lowercase w) = namesMatch v w := by
  have hlower : LetterCase.lowerAfter [] v.toList = v.toList.flatMap LetterCase.lower :=
    LetterCase.lowerAfter_of_notMem [] (LetterCase.notMem_of_isAscii hv)
  rw [Bool.eq_iff_iff, beq_iff_eq, namesMatch_iff, ← String.toList_inj, lowercase, lowercase,
    String.toList_ofList, String.toList_ofList, hlower]
  by_cases hw : 'Σ' ∈ w.toList
  · have hascii : IsAscii (v.toList.flatMap LetterCase.lower) := by
      rw [LetterCase.flatMap_lower_of_ascii hv]
      exact Ascii.isAscii_map_toLower hv
    constructor
    · intro h
      exact absurd (h ▸ hascii) (LetterCase.not_isAscii_lowerAfter [] hw)
    · intro h
      exact absurd (h ▸ hascii) (LetterCase.not_isAscii_flatMap_lower hw)
  · rw [LetterCase.lowerAfter_of_notMem [] hw]

/-- The Kelvin sign is lowered to an ASCII letter, so a text that is not ASCII may match a name. -/
example : namesMatch "Ask" "as\u212a" = true := by decide +kernel

/-- Beyond ASCII the two ways to compare differ, by the final sigma. -/
example : namesMatch "ΟΣ" "οσ" = true ∧ lowercase "ΟΣ" ≠ lowercase "οσ" := by decide +kernel

end QuestScript
