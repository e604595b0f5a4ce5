import QuestScript.Editor.Analysis
import QuestScript.Proofs.Tree.Zipper

/-! # What lies under a caret

A caret is resolved by going down the tree, and what it is found on stands in the tree
(`Analysis.hitAt_mem`), whether that is a token or the node among whose hidden tokens the caret is. -/

namespace QuestScript

namespace Parse
variable {p : Parse} {c : Caret} {hit : CaretHit}

theorem element_of_hit? {element : Place} {t : Token} (h : hit? c element t = some hit) :
    hit.element = element := by
  unfold hit? at h
  split at h
  · obtain rfl := Option.some.inj h
    rfl
  · cases h

theorem whole_of_firstLeaf? {place : Place}
    (h : (place.firstLeaf?.bind fun leaf => leaf.focus.token?.bind (hit? c leaf)) = some hit) :
    Place.whole hit.element.focus hit.element.path = Place.whole place.focus place.path := by
  obtain ⟨leaf, hleaf, h⟩ := Option.bind_eq_some_iff.mp h
  obtain ⟨t, -, h⟩ := Option.bind_eq_some_iff.mp h
  rw [element_of_hit? h]
  exact Place.whole_of_mem_within _ _ leaf (List.mem_of_find?_eq_some hleaf)

mutual
theorem whole_of_resolveIn : ∀ (path : List Frame) (t : Tree), p.resolveIn c path t = some hit →
    Place.whole hit.element.focus hit.element.path = Place.whole t path
  | path, .token t, h => by
    rw [resolveIn] at h
    rw [element_of_hit? h]
  | path, .node k cs, h => by
    rw [resolveIn] at h
    dsimp only at h
    split at h
    · exact whole_of_firstLeaf? h
    · split at h
      · cases h
      · split at h
        · rename_i found hfound
          rw [Option.some.inj h] at hfound
          exact whole_of_resolveAmong k path [] cs hfound
        · obtain ⟨t, -, h⟩ := List.exists_of_findSome?_eq_some h
          rw [element_of_hit? h]
theorem whole_of_resolveAmong : ∀ (k : NodeKind) (path : List Frame) (before cs : List Tree),
    p.resolveAmong c k path before cs = some hit →
      Place.whole hit.element.focus hit.element.path =
        Place.whole (.node k (before.reverse ++ cs)) path
  | k, path, before, [], h => by rw [resolveAmong] at h; cases h
  | k, path, before, t :: ts, h => by
    rw [resolveAmong] at h
    split at h
    · rename_i found hfound
      rw [Option.some.inj h] at hfound
      exact whole_of_resolveIn (⟨k, before, ts⟩ :: path) t hfound
    · rw [whole_of_resolveAmong k path (t :: before) ts h, List.reverse_cons, List.append_assoc,
        List.singleton_append]
end

end Parse

/-- **What lies under a position stands in the tree.** -/
theorem Analysis.hitAt_mem {a : Analysis} {position : Position} {hit : CaretHit}
    (h : a.hitAt position = some hit) :
    hit.element ∈ (Place.root a.parse.tree).descendants :=
  Place.mem_descendants_iff.mpr (Parse.whole_of_resolveIn [] a.parse.tree h)

end QuestScript
