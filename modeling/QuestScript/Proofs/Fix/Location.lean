import QuestScript.Proofs.Check.Document

/-! # Where sites are

In which block of a quest a site is (`Quest.exists_block`) and which part of a block is repeated
(`exists_repeatedAttribute`, `exists_repeatedDescription`). -/

namespace QuestScript.Ast

variable {flavor : Flavor} {seen : Bool} {s : Site flavor}

/-! ### Leaves -/

theorem Quest.leaf_mem {q : Quest Word flavor} (hs : s ∈ q.sites) {l : Leaf Word}
    (hl : s.leaf? = some l) : l ∈ q.leaves := by
  rw [← q.leaves_sites]
  exact List.mem_filterMap.mpr ⟨s, hs, hl⟩

/-! ### Blocks -/

theorem exists_block_sitesFrom {xs : List (Block Word flavor)} (hs : s ∈ sitesFrom seen xs) :
    ∃ as x bs, xs = as ++ x :: bs ∧ s ∈ x.sites (as.foldl Block.seenAfter seen) := by
  induction xs generalizing seen with
  | nil => cases hs
  | cons x xs ih =>
    rw [sitesFrom, List.mem_append] at hs
    rcases hs with hs | hs
    · exact ⟨[], x, xs, rfl, hs⟩
    · obtain ⟨as, y, bs, rfl, hy⟩ := ih hs
      exact ⟨x :: as, y, bs, rfl, hy⟩

/-- **The block of a site**, with the blocks before and after it. -/
theorem Quest.exists_block {q : Quest Word flavor} (hs : s ∈ q.sites) :
    ∃ as x bs, q.blocks = as ++ x :: bs ∧ s ∈ x.sites (!(as.filterMap Block.main?).isEmpty) := by
  obtain ⟨as, x, bs, hblocks, hx⟩ := exists_block_sitesFrom hs
  rw [Checker.foldl_seenAfter, Bool.false_or] at hx
  exact ⟨as, x, bs, hblocks, hx⟩

theorem mem_wordSites {ls : List (Leaf Word)} (hs : s ∈ wordSites ls) : ∃ l, s = .word l := by
  obtain ⟨l, -, rfl⟩ := List.mem_map.mp hs
  exact ⟨l, rfl⟩

theorem Quest.exists_main {q : Quest Word flavor} {x : MainBlock Word}
    (hs : .main seen x ∈ q.sites) : ∃ as bs, q.blocks = as ++ .main x :: bs ∧
      (seen = true → as.filterMap Block.main? ≠ []) := by
  obtain ⟨as, y, bs, hblocks, hy⟩ := Quest.exists_block hs
  cases y with
  | main y =>
    rcases List.mem_cons.mp hy with hy | hy
    · obtain ⟨hseen, rfl⟩ := Site.main.inj hy
      refine ⟨as, bs, hblocks, fun htrue hnil => ?_⟩
      rw [hnil] at hseen
      rw [hseen] at htrue
      cases htrue
    · obtain ⟨l, hl⟩ := mem_wordSites hy
      cases hl
  | state y =>
    obtain ⟨ss, hss, hin⟩ := y.exists_sites
    rw [Block.sites, hss] at hy
    rcases List.mem_cons.mp hy with hy | hy
    · cases hy
    · cases hin _ hy

theorem Quest.exists_state {q : Quest Word flavor} {x : StateBlock Word flavor}
    (hs : .state x ∈ q.sites) : ∃ as bs, q.blocks = as ++ .state x :: bs := by
  obtain ⟨as, y, bs, hblocks, hy⟩ := Quest.exists_block hs
  cases y with
  | main y =>
    rcases List.mem_cons.mp hy with hy | hy
    · cases hy
    · obtain ⟨l, hl⟩ := mem_wordSites hy
      cases hl
  | state y =>
    obtain ⟨ss, hss, hin⟩ := y.exists_sites
    rw [Block.sites, hss] at hy
    rcases List.mem_cons.mp hy with hy | hy
    · obtain rfl := Site.state.inj hy
      exact ⟨as, bs, hblocks⟩
    · cases hin _ hy

/-! ### References -/

section References
variable {kind : SymbolKind} {name : Word .identifier} {arguments : Option (ArgumentList Word)}
  {stop stop' : Position}

theorem reference_notMem_wordSites (ls : List (Leaf Word)) :
    (.reference kind name arguments stop : Site flavor) ∉ wordSites ls := by
  intro hs
  obtain ⟨l, hl⟩ := mem_wordSites hs
  cases hl

theorem Expression.stop_eq {callees : SymbolKind} {isCondition : Bool} {x : Expression Word}
    (hs : (.reference kind name arguments stop : Site flavor) ∈ x.sites stop' callees isCondition) :
    stop = stop' := by
  cases x with
  | invocation x =>
    rcases List.mem_cons.mp hs with hs | hs
    · exact (Site.reference.inj hs).2.2.2
    · exact absurd hs (reference_notMem_wordSites _)
  | goto keyword target =>
    rcases List.mem_append.mp hs with hs | hs
    · cases isCondition
      · cases hs
      · cases List.mem_singleton.mp hs
    · rcases List.mem_cons.mp hs with hs | hs
      · cases hs
      · exact (Site.reference.inj (List.mem_singleton.mp hs)).2.2.2
  | literal x => exact absurd hs (reference_notMem_wordSites _)

theorem Statement.stop_eq {x : Statement Word flavor}
    (hs : .reference kind name arguments stop ∈ x.sites stop') : stop = stop' := by
  cases x with
  | description keyword text close => exact absurd hs (reference_notMem_wordSites _)
  | rule keyword condition goto target close =>
    simp only [sites, List.mem_cons, List.mem_append, reduceCtorEq, false_or, Site.reference.injEq,
      reference_notMem_wordSites, or_false] at hs
    rcases hs with hs | hs
    · exact hs.2.2.2
    · exact hs.2.2.2
  | action keyword effect close =>
    simp only [sites, List.mem_cons, List.mem_append, reduceCtorEq, false_or, Site.reference.injEq,
      reference_notMem_wordSites, or_false] at hs
    exact hs.2.2.2
  | conditional c keyword condition effect close =>
    simp only [sites, List.mem_cons, List.mem_append, reduceCtorEq, false_or,
      reference_notMem_wordSites, or_false] at hs
    rcases hs with hs | hs
    · exact Expression.stop_eq hs
    · exact Expression.stop_eq hs
  | unconditional c keyword effect close =>
    simp only [sites, List.mem_cons, List.mem_append, reduceCtorEq, false_or,
      reference_notMem_wordSites, or_false] at hs
    exact Expression.stop_eq hs

/-- The state around a reference, which ends where the reference says. -/
theorem Quest.exists_state_around {q : Quest Word flavor}
    (hs : .reference kind name arguments stop ∈ q.sites) :
    ∃ as x bs, q.blocks = as ++ .state x :: bs ∧ stop = x.closing.1.span.stop := by
  obtain ⟨as, x, bs, hblocks, hx⟩ := Quest.exists_block hs
  cases x with
  | main x =>
    rcases List.mem_cons.mp hx with hx | hx
    · cases hx
    · exact absurd hx (reference_notMem_wordSites _)
  | state x =>
    refine ⟨as, x, bs, hblocks, ?_⟩
    simp only [Block.sites, StateBlock.sites, List.mem_cons, List.mem_append, reduceCtorEq, false_or,
      reference_notMem_wordSites, or_false] at hx
    obtain ⟨y, -, hy⟩ := List.mem_flatMap.mp hx
    exact Statement.stop_eq hy

end References

/-! ### Repeated parts -/

/-- Where a repeated attribute stands: another with its keyword stands before it. -/
theorem exists_repeatedAttribute {known : List Keyword} {xs : List (Attribute Word)} {x : Attribute Word}
    (h : x ∈ Checker.repeated known xs) : ∃ as bs, xs = as ++ x :: bs ∧
      (x.keyword ∈ known ∨ x.keyword ∈ as.map Attribute.keyword) := by
  induction xs generalizing known with
  | nil => cases h
  | cons y xs ih =>
    unfold Checker.repeated at h
    by_cases hy : y.keyword ∈ known
    · rw [if_pos hy] at h
      rcases List.mem_cons.mp h with rfl | h
      · exact ⟨[], xs, rfl, .inl hy⟩
      · obtain ⟨as, bs, rfl, hx⟩ := ih h
        refine ⟨y :: as, bs, rfl, ?_⟩
        rcases hx with hx | hx
        · exact .inl hx
        · exact .inr (List.mem_cons_of_mem _ hx)
    · rw [if_neg hy] at h
      obtain ⟨as, bs, rfl, hx⟩ := ih h
      refine ⟨y :: as, bs, rfl, ?_⟩
      rcases hx with hx | hx
      · rcases List.mem_cons.mp hx with hx | hx
        · exact .inr (by rw [hx]; simp)
        · exact .inl hx
      · exact .inr (List.mem_cons_of_mem _ hx)

theorem exists_repeatedDescription {xs : List (Statement Word flavor)} {x : Statement Word flavor}
    (h : x ∈ (xs.filter (·.isDescription)).drop 1) : ∃ as bs, xs = as ++ x :: bs ∧
      x.isDescription = true ∧ ∃ y ∈ as, y.isDescription = true := by
  obtain ⟨first, more, hmore⟩ : ∃ first more, xs.filter (·.isDescription) = first :: more := by
    refine List.exists_cons_of_ne_nil fun hnil => ?_
    rw [hnil] at h
    cases h
  obtain ⟨as, bs, rfl, has, hfirst, hbs⟩ := List.filter_eq_cons_iff.mp hmore
  rw [hmore, List.drop_succ_cons, List.drop_zero, ← hbs, List.mem_filter] at h
  obtain ⟨cs, ds, rfl⟩ := List.append_of_mem h.1
  exact ⟨as ++ first :: cs, ds, by simp, h.2, first, by simp, hfirst⟩

end QuestScript.Ast
