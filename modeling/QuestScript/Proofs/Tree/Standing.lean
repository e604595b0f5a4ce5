import QuestScript.Proofs.Tree.Zipper

/-! # Where a tree stands

`Tree.Stands` says that a tree stands in or below some trees: which nodes are around it, and which
siblings it has on either side. The trees of one rule come piece by piece, and what stands in a piece
stands in the whole with more siblings at its sides (`Stands.append_left`, `Stands.append_right`); what
stands in the whole stands in one of the pieces (`Stands.of_append`). What stands in a tree is what has
a place in it (`Place.stands_iff`). -/

namespace QuestScript

namespace Tree

/-- In or below the trees `ts`, which stand inside the nodes `outer`, stands the tree `t`: inside the
nodes `inner`, the outermost first, after its siblings `before` and before its siblings `after`. -/
inductive Stands : (outer : List NodeKind) → (ts : List Tree) → (inner : List NodeKind) →
    (before : List Tree) → (t : Tree) → (after : List Tree) → Prop
  | here (outer : List NodeKind) (before : List Tree) (t : Tree) (after : List Tree) :
      Stands outer (before ++ t :: after) outer before t after
  | deeper {outer inner : List NodeKind} {ts cs before after : List Tree} {k : NodeKind} {t : Tree} :
      node k cs ∈ ts → Stands (outer ++ [k]) cs inner before t after →
        Stands outer ts inner before t after

variable {outer inner : List NodeKind} {ss ts cs before after : List Tree} {k : NodeKind} {t : Tree}

/-- What stands in a list of trees is one of them or stands below one of them. -/
theorem stands_cases (h : Stands outer ts inner before t after) :
    (inner = outer ∧ ts = before ++ t :: after) ∨
      ∃ k cs, node k cs ∈ ts ∧ Stands (outer ++ [k]) cs inner before t after := by
  cases h with
  | here => exact Or.inl ⟨rfl, rfl⟩
  | deeper hmem h => exact Or.inr ⟨_, _, hmem, h⟩

theorem Stands.append_left (ss : List Tree) (h : Stands outer ts inner before t after) :
    ∃ more, Stands outer (ss ++ ts) inner (more ++ before) t after := by
  rcases stands_cases h with ⟨rfl, rfl⟩ | ⟨k, cs, hmem, h⟩
  · refine ⟨ss, ?_⟩
    rw [← List.append_assoc]
    exact .here inner (ss ++ before) t after
  · exact ⟨[], .deeper (List.mem_append_right ss hmem) h⟩

theorem Stands.append_right (us : List Tree) (h : Stands outer ts inner before t after) :
    ∃ more, Stands outer (ts ++ us) inner before t (after ++ more) := by
  rcases stands_cases h with ⟨rfl, rfl⟩ | ⟨k, cs, hmem, h⟩
  · refine ⟨us, ?_⟩
    have heq : before ++ t :: after ++ us = before ++ t :: (after ++ us) := by simp
    rw [heq]
    exact .here inner before t (after ++ us)
  · refine ⟨[], ?_⟩
    rw [List.append_nil]
    exact .deeper (List.mem_append_left us hmem) h

/-- **What stands in two pieces stands in one of them**, in the second maybe with fewer siblings
before it. -/
theorem Stands.of_append (h : Stands outer (ss ++ ts) inner before t after) :
    (∃ after', Stands outer ss inner before t after') ∨
      ∃ more before', before = more ++ before' ∧ Stands outer ts inner before' t after := by
  rcases stands_cases h with ⟨rfl, heq⟩ | ⟨k, cs, hmem, h⟩
  · rcases List.append_eq_append_iff.mp heq with ⟨more, rfl, hts⟩ | ⟨more, rfl, hts⟩
    · exact Or.inr ⟨ss, more, rfl, hts ▸ .here inner more t after⟩
    · cases more with
      | nil =>
        refine Or.inr ⟨before, [], (List.append_nil before).symm, ?_⟩
        rw [List.nil_append] at hts
        rw [← hts]
        exact .here inner [] t after
      | cons u more =>
        obtain ⟨rfl, rfl⟩ := List.cons.inj hts
        exact Or.inl ⟨more, .here inner before t more⟩
  · rcases List.mem_append.mp hmem with hmem | hmem
    · exact Or.inl ⟨after, .deeper hmem h⟩
    · exact Or.inr ⟨[], before, rfl, .deeper hmem h⟩

theorem stands_node (h : Stands outer [node k cs] inner before t after) :
    t = node k cs ∨ Stands (outer ++ [k]) cs inner before t after := by
  rcases stands_cases h with ⟨-, heq⟩ | ⟨j, ds, hmem, hbelow⟩
  · have hmem : t ∈ [node k cs] := by
      rw [heq]
      exact List.mem_append_right before List.mem_cons_self
    exact Or.inl (List.mem_singleton.mp hmem)
  · rw [List.mem_singleton, node.injEq] at hmem
    obtain ⟨rfl, rfl⟩ := hmem
    exact Or.inr hbelow

theorem Stands.child {earlier later : List Tree} (h : Stands outer ts inner before
    (node k (earlier ++ t :: later)) after) : Stands outer ts (inner ++ [k]) earlier t later := by
  generalize hu : node k (earlier ++ t :: later) = u at h
  induction h with
  | here outer before u after =>
    subst hu
    exact .deeper (List.mem_append_right before List.mem_cons_self) (.here _ earlier t later)
  | deeper hmem _ ih => exact .deeper hmem (ih hu)

theorem Stands.next {u : Tree} (h : Stands outer ts inner before t (u :: after)) :
    Stands outer ts inner (before ++ [t]) u after := by
  generalize hlater : u :: after = later at h
  induction h with
  | here outer before t later =>
    subst hlater
    rw [List.append_cons]
    exact .here outer (before ++ [t]) u after
  | deeper hmem _ ih => exact .deeper hmem (ih hlater)

/-- The leaves of what stands somewhere, with those of its siblings, are leaves without a gap. -/
theorem Stands.leaves (h : Stands outer ts inner before t after) :
    ∃ left right, leavesOf ts = left ++ (leavesOf before ++ (t.leaves ++ right)) := by
  induction h with
  | here outer before t after => exact ⟨[], leavesOf after, by simp⟩
  | deeper hmem _ ih =>
    obtain ⟨left, right, hleaves⟩ := ih
    obtain ⟨earlier, later, rfl⟩ := List.append_of_mem hmem
    refine ⟨leavesOf earlier ++ left, right ++ leavesOf later, ?_⟩
    rw [leavesOf_append, leavesOf_cons, leaves_node, hleaves]
    simp only [List.append_assoc]

end Tree

namespace Place
open QuestScript.Tree

/-- The kinds of the nodes around a place, the outermost first. -/
def rules (q : Place) : List NodeKind := (q.path.map (·.kind)).reverse

variable {t : Tree} {ts before after : List Tree} {inner outer : List NodeKind} {k : NodeKind}

theorem rules_cons (f : Frame) (path : List Frame) :
    rules ⟨t, f :: path⟩ = rules ⟨.node k ts, path⟩ ++ [f.kind] := by
  simp [rules]

theorem exists_place (h : Stands outer ts inner before t after) (path : List Frame)
    (hrules : outer = rules ⟨.node k ts, path⟩ ++ [k]) :
    ∃ j around, whole t (⟨j, before.reverse, after⟩ :: around) = whole (.node k ts) path ∧
      rules ⟨t, ⟨j, before.reverse, after⟩ :: around⟩ = inner := by
  induction h generalizing k path with
  | here outer before t after =>
    refine ⟨k, path, ?_, ?_⟩
    · rw [whole, List.reverse_reverse]
    · rw [hrules, rules_cons]
  | @deeper outer inner ts cs before after j t hmem _ ih =>
    obtain ⟨earlier, later, rfl⟩ := List.append_of_mem hmem
    obtain ⟨i, around, hwhole, hinner⟩ := ih (k := j) (⟨k, earlier.reverse, later⟩ :: path)
      (by rw [hrules, rules_cons])
    refine ⟨i, around, hwhole.trans ?_, hinner⟩
    rw [whole, List.reverse_reverse]

theorem stands_of_whole : ∀ {path : List Frame} {f : Frame} {t : Tree},
    whole t (f :: path) = .node k ts →
      Stands [k] ts (rules ⟨t, f :: path⟩) f.before.reverse t f.after
  | [], f, t, h => by
    obtain ⟨rfl, rfl⟩ := node.inj h
    exact .here [f.kind] f.before.reverse t f.after
  | g :: path, f, t, h => by
    have hparent := stands_of_whole (t := .node f.kind (f.before.reverse ++ t :: f.after)) h
    have hchild := hparent.child
    rwa [← rules_cons] at hchild

/-- **What stands in a tree is what has a place in it.** -/
theorem stands_iff : Stands [k] ts inner before t after ↔
    ∃ j around, ⟨t, ⟨j, before.reverse, after⟩ :: around⟩ ∈ (Place.root (.node k ts)).descendants ∧
      rules ⟨t, ⟨j, before.reverse, after⟩ :: around⟩ = inner := by
  constructor
  · intro h
    obtain ⟨j, around, hwhole, hrules⟩ := exists_place (k := k) h [] rfl
    exact ⟨j, around, mem_descendants_iff.mpr hwhole, hrules⟩
  · rintro ⟨j, around, hmem, rfl⟩
    have h := stands_of_whole (mem_descendants_iff.mp hmem)
    rwa [List.reverse_reverse] at h

end Place

end QuestScript
