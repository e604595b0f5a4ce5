import Mathlib.Data.List.NodupEquivFin
import QuestScript.Proofs.Editor.Completion

/-! # What has been typed selects and orders the items

An item is kept if its label spells what has been typed: some strictly increasing choice of positions in
the label, in lowercase, reads it (`Completion.OccursIn`). The matcher takes each character where it first
occurs and finds such a choice whenever there is one (`isSpelledIn_iff_occursIn`).

Nothing depends on what the scores are, only on their order being total (`Std.TransCmp`): the items that
are kept are neither lost nor repeated, the best score comes first, and the items of each score are in the
order in which they were offered. Text without a capital sigma is lowered character by character, so to
type on after it selects among what was kept (`Completion.filterBy_append_subperm`). -/

namespace QuestScript

namespace Completion

/-! ### Characters in order -/

/-- Some strictly increasing choice of positions in the second text reads the first. -/
def OccursIn (cs ds : List Char) : Prop :=
  ∃ position : Fin cs.length → Fin ds.length, StrictMono position ∧
    ∀ i, ds.get (position i) = cs.get i

theorem occursIn_iff_sublist (cs ds : List Char) : OccursIn cs ds ↔ cs.Sublist ds := by
  rw [List.sublist_iff_exists_fin_orderEmbedding_get_eq]
  constructor
  · rintro ⟨position, hmono, hget⟩
    exact ⟨OrderEmbedding.ofStrictMono position hmono, fun i => (hget i).symm⟩
  · rintro ⟨position, hget⟩
    exact ⟨position, position.strictMono, fun i => (hget i).symm⟩

/-- **The one-pass matcher is complete**: it finds a text wherever its characters occur in order. -/
theorem isSpelledIn_iff_occursIn (cs ds : List Char) : isSpelledIn cs ds = true ↔ OccursIn cs ds := by
  rw [isSpelledIn_iff, occursIn_iff_sublist]

instance (cs ds : List Char) : Decidable (OccursIn cs ds) :=
  decidable_of_iff _ (isSpelledIn_iff_occursIn cs ds)

/-- The label of the item spells what has been typed, in any letter case. -/
def Spells (typed : String) (item : Completion) : Prop :=
  OccursIn (lowercase typed).toList (lowercase item.label).toList

instance (typed : String) (item : Completion) : Decidable (Spells typed item) :=
  inferInstanceAs (Decidable (OccursIn _ _))

/-- To type on rejects what was rejected before. -/
theorem Spells.of_append {typed : String} (h : 'Σ' ∉ typed.toList) {more : String}
    {item : Completion} (hspells : Spells (typed ++ more) item) : Spells typed item := by
  rw [Spells, occursIn_iff_sublist] at hspells ⊢
  exact (sublist_lowercase_append h more).trans hspells

/-! ### Order -/

section Scores
variable {α : Type} (order : α → α → Ordering) (score : List Char → List Char → α) (typed : String)

/-- The score of an item. -/
def scoreOf (item : Completion) : α :=
  score (lowercase typed).toList (lowercase item.label).toList

/-- The first item is not worse than the second. -/
def notWorse (x y : Completion) : Bool :=
  (order (scoreOf score typed y) (scoreOf score typed x)).isLE

/-- The score of the item equals this one. -/
def hasScore (s : α) (item : Completion) : Bool := order (scoreOf score typed item) s == .eq

variable {order score typed} {items : List Completion}

theorem filterBy_eq (h : typed ≠ "") : filterBy order score typed items =
    (items.filter (Spells typed ·)).mergeSort (notWorse order score typed) := by
  have hspells : items.filter (fun item =>
      isSpelledIn (lowercase typed).toList (lowercase item.label).toList) =
        items.filter (Spells typed ·) :=
    List.filter_congr fun item _ => by
      rw [Bool.eq_iff_iff, isSpelledIn_iff_occursIn, decide_eq_true_iff, Spells]
  rw [filterBy, String.isEmpty_eq_false_iff.mpr h, if_neg Bool.false_ne_true]
  exact congrArg (List.mergeSort · _) hspells

theorem filterBy_perm (h : typed ≠ "") :
    (filterBy order score typed items).Perm (items.filter (Spells typed ·)) := by
  rw [filterBy_eq h]
  exact List.mergeSort_perm _ _

/-- **To type on selects among what was kept**, each item as often as it is offered. -/
theorem filterBy_append_subperm (h : 'Σ' ∉ typed.toList) (more : String) :
    (filterBy order score (typed ++ more) items).Subperm (filterBy order score typed items) := by
  by_cases hmore : typed ++ more = ""
  · obtain ⟨rfl, rfl⟩ := String.append_eq_empty_iff.mp hmore
    exact List.Subperm.refl _
  refine (filterBy_perm hmore).subperm.trans ?_
  by_cases htyped : typed = ""
  · subst htyped
    exact List.filter_sublist.subperm
  · refine List.Subperm.trans (List.Sublist.subperm ?_) (filterBy_perm htyped).symm.subperm
    refine List.monotone_filter_right items fun item hitem => ?_
    exact decide_eq_true (Spells.of_append h (of_decide_eq_true hitem))

variable [Std.TransCmp order]

theorem notWorse_trans (x y z : Completion) (hxy : notWorse order score typed x y = true)
    (hyz : notWorse order score typed y z = true) : notWorse order score typed x z = true :=
  Std.TransCmp.isLE_trans hyz hxy

theorem notWorse_total (x y : Completion) :
    (notWorse order score typed x y || notWorse order score typed y x) = true := by
  have hswap : order (scoreOf score typed y) (scoreOf score typed x) =
      (order (scoreOf score typed x) (scoreOf score typed y)).swap := Std.OrientedCmp.eq_swap
  rw [notWorse, notWorse, hswap]
  cases order (scoreOf score typed x) (scoreOf score typed y) <;> rfl

theorem notWorse_of_hasScore {s : α} {x y : Completion} (hx : hasScore order score typed s x = true)
    (hy : hasScore order score typed s y = true) : notWorse order score typed x y = true := by
  have hxs : order (scoreOf score typed x) s = .eq := eq_of_beq hx
  have hys : order (scoreOf score typed y) s = .eq := eq_of_beq hy
  have hyx : order (scoreOf score typed y) (scoreOf score typed x) = .eq :=
    Std.TransCmp.eq_trans hys (Std.OrientedCmp.eq_symm hxs)
  rw [notWorse, hyx]
  rfl

/-- **Sorting is stable**: the items of one score stand in the order in which they are offered. -/
theorem filter_hasScore_filterBy (h : typed ≠ "") (s : α) :
    (filterBy order score typed items).filter (hasScore order score typed s) =
      (items.filter (Spells typed ·)).filter (hasScore order score typed s) := by
  have hkept : (filterBy order score typed items).Perm (items.filter (Spells typed ·)) := filterBy_perm h
  have hperm := hkept.filter (hasScore order score typed s)
  -- Items of one score are sorted as they are, so sorting keeps them as a sublist.
  have hsublist : ((items.filter (Spells typed ·)).filter (hasScore order score typed s)).Sublist
      (filterBy order score typed items) := by
    rw [filterBy_eq h]
    refine List.sublist_mergeSort notWorse_trans notWorse_total ?_ List.filter_sublist
    refine List.pairwise_of_forall_mem_list fun x hx y hy => ?_
    exact notWorse_of_hasScore (List.mem_filter.mp hx).2 (List.mem_filter.mp hy).2
  have hfilter := hsublist.filter (hasScore order score typed s)
  rw [List.filter_eq_self.mpr fun _ => List.of_mem_filter] at hfilter
  exact (hfilter.eq_of_length hperm.length_eq.symm).symm

end Scores

/-- **Nothing is lost and nothing invented**, whatever the scores are. Before anything is typed the items
are as offered. Afterwards they are exactly those whose labels spell what has been typed, as often as they
are offered, with the best score first and those of equal score in the order in which they are offered.
What remains after typing on was there before, unless a capital sigma has been typed. -/
theorem filterBy_exact {α : Type} (order : α → α → Ordering) [Std.TransCmp order]
    (score : List Char → List Char → α) (typed : String) (items : List Completion) :
    filterBy order score "" items = items ∧
      (typed ≠ "" →
        (filterBy order score typed items).Perm (items.filter (Spells typed ·)) ∧
        (filterBy order score typed items).Pairwise
          (fun x y => notWorse order score typed x y = true) ∧
        ∀ s, (filterBy order score typed items).filter (hasScore order score typed s) =
          (items.filter (Spells typed ·)).filter (hasScore order score typed s)) ∧
      ('Σ' ∉ typed.toList → ∀ more,
        (filterBy order score (typed ++ more) items).Subperm (filterBy order score typed items)) := by
  refine ⟨rfl, fun htyped => ⟨filterBy_perm htyped, ?_, filter_hasScore_filterBy htyped⟩,
    filterBy_append_subperm⟩
  rw [filterBy_eq htyped]
  exact List.pairwise_mergeSort notWorse_trans notWorse_total _

/-- Of three keywords the first two characters of `else` keep two, and `elsei` keeps no others. -/
theorem filterBy_exact_else :
    let items := [Keyword.elseIf, .otherwise, .action].map ofKeyword
    (filter "el" items).Perm ([Keyword.elseIf, .otherwise].map ofKeyword) ∧
      (filter ("el" ++ "sei") items).Subperm (filter "el" items) := by
  intro items
  obtain ⟨-, htyped, hmore⟩ :=
    filterBy_exact (fun m n : Nat => compare n m) (fun _ label => label.length) "el" items
  have hkept : items.filter (Spells "el" ·) = [Keyword.elseIf, .otherwise].map ofKeyword := by
    decide +kernel
  rw [← hkept]
  exact ⟨(htyped (by decide)).1, hmore (by decide) "sei"⟩

/-- A capital sigma is lowered to its final form while it is the last letter typed. -/
example : ¬ Spells "ΟΣ" ⟨"ΟΣΑ", .module, none, none⟩ ∧ Spells "ΟΣΑ" ⟨"ΟΣΑ", .module, none, none⟩ := by
  decide +kernel

end Completion

end QuestScript
