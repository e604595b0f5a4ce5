import QuestScript.Proofs.Grammar.Tolerant
import QuestScript.Proofs.Tree.Hidden
import QuestScript.Proofs.Tree.Nested

/-! # Nodes are solid

A word that a rule matches is made of the symbols that the rule names (`Rhs.mem_symbols`), and only
the rule of a file matches the empty word. So, apart from the file, every node of a tolerated tree
has a leaf (`Tree.IsTolerated.leaves_ne_nil`). When the hidden tokens of a document are woven into
such a tree, its nodes still start and end with significant tokens (`Tree.tight_weave`). -/

namespace QuestScript

/-! ### The symbols of a rule -/

namespace Rhs
variable {e : Rhs} {w : List Kind} {x : Kind}

/-- The kinds that an expression names. -/
def symbols : Rhs → List Kind
  | .zero | .epsilon => []
  | .char x => [x]
  | .plus e f | .comp e f => symbols e ++ symbols f
  | .star e => symbols e

/-- **A word that an expression matches is made of its symbols.** -/
theorem mem_symbols (hw : w ∈ e.matches') (hx : x ∈ w) : x ∈ e.symbols := by
  induction e generalizing w with
  | zero => exact absurd hw (Language.notMem_zero w)
  | epsilon =>
    rw [mem_one.mp hw] at hx
    cases hx
  | char y =>
    obtain rfl : w = [y] := hw
    exact hx
  | plus e f ihe ihf =>
    rcases (Language.mem_add _ _ _).mp hw with hw | hw
    · exact List.mem_append_left _ (ihe hw hx)
    · exact List.mem_append_right _ (ihf hw hx)
  | comp e f ihe ihf =>
    obtain ⟨u, hu, v, hv, rfl⟩ := mem_mul.mp hw
    rcases List.mem_append.mp hx with hx | hx
    · exact List.mem_append_left _ (ihe hu hx)
    · exact List.mem_append_right _ (ihf hv hx)
  | star e ih =>
    obtain ⟨vs, rfl, hvs⟩ := mem_many.mp hw
    obtain ⟨v, hv, hx⟩ := List.mem_flatten.mp hx
    exact ih (hvs v hv) hx

end Rhs

variable {flavor : Flavor} {n : NodeKind} {w : List Kind}

/-- No rule has a file on its right side. -/
theorem ne_file_of_mem (h : w ∈ (tolerant flavor n).matches') {x : Kind} (hx : x ∈ w) :
    x ≠ .node .file := by
  have hsymbols : ∀ y ∈ (tolerant flavor n).symbols, y ≠ .node .file := by
    cases flavor <;> cases n <;> decide
  exact hsymbols x (Rhs.mem_symbols h hx)

theorem ne_nil_of_mem (hn : n ≠ .file) (h : w ∈ (tolerant flavor n).matches') : w ≠ [] := by
  rintro rfl
  rw [← RegularExpression.rmatch_iff_matches', RegularExpression.rmatch] at h
  revert h
  cases flavor <;> cases n <;> first | exact absurd rfl hn | decide

namespace Tree

/-! ### Tolerated trees -/

section Tolerated
variable {t : Tree} {cs : List Tree}

theorem IsTolerated.ne_nil (h : (Tree.node n cs).IsTolerated flavor) (hn : n ≠ .file) : cs ≠ [] := by
  cases h with
  | skipped s => exact List.cons_ne_nil _ _
  | node hcs hall => exact fun hnil => ne_nil_of_mem hn hcs (by rw [hnil, List.map_nil])

theorem IsTolerated.of_mem (h : (Tree.node n cs).IsTolerated flavor) {c : Tree} (hc : c ∈ cs) :
    c.IsTolerated flavor ∧ c.isNode .file = false := by
  cases h with
  | skipped s =>
    rw [List.mem_singleton.mp hc]
    exact ⟨.token s, rfl⟩
  | node hcs hall =>
    refine ⟨hall c hc, Bool.eq_false_iff.mpr fun hfile => ?_⟩
    exact ne_file_of_mem hcs (List.mem_map_of_mem hc) (isNode_iff.mp hfile)

/-- **Apart from the file every node has a leaf.** -/
theorem IsTolerated.leaves_ne_nil : ∀ {t : Tree}, t.IsTolerated flavor → t.isNode .file = false →
    t.leaves ≠ []
  | .token s, _, _ => by simp
  | .node n [], h, ht => absurd rfl (h.ne_nil fun hn => by simp [isNode, kind, hn] at ht)
  | .node n (c :: cs), h, _ => by
    obtain ⟨hc, hfile⟩ := h.of_mem List.mem_cons_self
    rw [leaves_node, leavesOf_cons]
    exact List.append_ne_nil_of_left_ne_nil (hc.leaves_ne_nil hfile) _

end Tolerated

/-! ### Woven trees -/

/-- The tokens start and end with a significant one. -/
structure Tight (ls : List Token) : Prop where
  first : ∃ s ∈ ls.head?, s.isSignificant = true
  last : ∃ s ∈ ls.getLast?, s.isSignificant = true

theorem exists_getLast?_append {ls : List Token} (h : ∃ s ∈ ls.getLast?, s.isSignificant = true)
    (before : List Token) : ∃ s ∈ (before ++ ls).getLast?, s.isSignificant = true := by
  obtain ⟨s, hs, hsig⟩ := h
  exact ⟨s, List.mem_getLast?_append_of_mem_getLast? hs, hsig⟩

mutual
/-- **A woven tree starts and ends with a significant token**, unless it is a whole file. -/
theorem tight_weave : ∀ (t : Tree) (document : List Token), t.IsTolerated flavor →
    t.isNode .file = false → (∀ l ∈ t.leaves, l.isSignificant = true) →
      Tight (t.weave document).1.leaves
  | token s, document, _, _, hsig => by
    have hs := hsig s (by simp)
    exact ⟨⟨s, by simp [weave], hs⟩, ⟨s, by simp [weave], hs⟩⟩
  | node n [], document, h, ht, _ =>
    absurd rfl (h.ne_nil fun hn => by simp [isNode, kind, hn] at ht)
  | node n (c :: cs), document, h, _, hsig => by
    rw [leaves_node, leavesOf_cons] at hsig
    obtain ⟨hc, hfile⟩ := h.of_mem List.mem_cons_self
    have htight := tight_weave c document hc hfile fun l hl => hsig l (List.mem_append_left _ hl)
    have hcs := weaveAll_ends cs (c.weave document).2
      (fun d hd => h.of_mem (List.mem_cons_of_mem _ hd))
      fun l hl => hsig l (List.mem_append_right _ hl)
    simp only [weave, leaves_node, leavesOf_cons]
    refine ⟨?_, ?_⟩
    · obtain ⟨s, hs, hsig⟩ := htight.first
      exact ⟨s, List.mem_head?_append_of_mem_head? hs, hsig⟩
    · rcases hcs with rfl | hlast
      · simpa [weaveAll] using htight.last
      · exact exists_getLast?_append hlast _
theorem weaveAll_ends : ∀ (cs : List Tree) (document : List Token),
    (∀ c ∈ cs, c.IsTolerated flavor ∧ c.isNode .file = false) →
      (∀ l ∈ leavesOf cs, l.isSignificant = true) →
        cs = [] ∨ ∃ s ∈ (leavesOf (weaveAll cs document).1).getLast?, s.isSignificant = true
  | [], _, _, _ => .inl rfl
  | c :: cs, document, h, hsig => by
    rw [leavesOf_cons] at hsig
    obtain ⟨⟨hc, hfile⟩, hall⟩ := List.forall_mem_cons.mp h
    have htight := tight_weave c (document.dropWhile (·.isHidden)) hc hfile
      fun l hl => hsig l (List.mem_append_left _ hl)
    have hcs := weaveAll_ends cs (c.weave (document.dropWhile (·.isHidden))).2 hall
      fun l hl => hsig l (List.mem_append_right _ hl)
    simp only [weaveAll, leavesOf_append, leavesOf_cons]
    refine .inr (exists_getLast?_append ?_ _)
    rcases hcs with rfl | hlast
    · simpa [weaveAll] using htight.last
    · exact exists_getLast?_append hlast _
end

/-! ### What is below a woven tree -/

/-- The tree is a token or comes from weaving `t`. -/
def IsWoven (ts : List Tree) (u : Tree) : Prop :=
  (∃ s, u = token s) ∨ ∃ t ∈ subtreesOf ts, ∃ document, u = (t.weave document).1

theorem IsWoven.mono {ss ts : List Tree} {u : Tree} (h : IsWoven ss u)
    (hsub : subtreesOf ss ⊆ subtreesOf ts) : IsWoven ts u :=
  h.imp_right fun ⟨t, ht, hu⟩ => ⟨t, hsub ht, hu⟩

mutual
theorem isWoven_weave : ∀ (t : Tree) (document : List Token),
    ∀ u ∈ (t.weave document).1.subtrees, IsWoven [t] u
  | token s, document, u, hu => by
    simp only [weave, subtrees, List.mem_singleton] at hu
    exact .inl ⟨s, hu⟩
  | node n [], document, u, hu => by
    simp only [weave, subtrees, subtreesOf, List.mem_singleton] at hu
    exact .inr ⟨node n [], by simp [subtreesOf, subtrees], [], by simp [weave, hu]⟩
  | node n (c :: cs), document, u, hu => by
    have hself : IsWoven [node n (c :: cs)] (weave (node n (c :: cs)) document).1 :=
      .inr ⟨_, mem_subtreesOf_of_mem List.mem_cons_self, document, rfl⟩
    have hbelow : subtreesOf (c :: cs) ⊆ subtreesOf [node n (c :: cs)] := fun v hv => by
      rw [subtreesOf, subtreesOf, List.append_nil]
      exact mem_subtrees_node.mpr (.inr hv)
    have hroot : (weave (node n (c :: cs)) document).1 =
      node n ((c.weave document).1 :: (weaveAll cs (c.weave document).2).1) := by simp only [weave]
    rw [hroot] at hu hself
    rcases mem_subtrees_node.mp hu with rfl | hu
    · exact hself
    · rw [subtreesOf, List.mem_append] at hu
      rcases hu with hu | hu
      · refine ((isWoven_weave c document u hu).mono fun v hv => ?_).mono hbelow
        rw [subtreesOf, subtreesOf, List.append_nil] at hv
        exact List.mem_append_left _ hv
      · refine ((isWoven_weaveAll cs _ u hu).mono fun v hv => ?_).mono hbelow
        exact List.mem_append_right _ hv
theorem isWoven_weaveAll : ∀ (cs : List Tree) (document : List Token),
    ∀ u ∈ subtreesOf (weaveAll cs document).1, IsWoven cs u
  | [], _, u, hu => by simp [weaveAll, subtreesOf] at hu
  | c :: cs, document, u, hu => by
    simp only [weaveAll, subtreesOf_append, subtreesOf, List.mem_append] at hu
    rcases hu with hu | hu | hu
    · obtain ⟨t, ht, hu⟩ := mem_subtreesOf.mp hu
      obtain ⟨s, -, rfl⟩ := List.mem_map.mp ht
      exact .inl ⟨s, by simpa [subtrees] using hu⟩
    · refine (isWoven_weave c _ u hu).mono fun v hv => ?_
      rw [subtreesOf, subtreesOf, List.append_nil] at hv
      exact List.mem_append_left _ hv
    · exact (isWoven_weaveAll cs _ u hu).mono (List.subset_append_right _ _)
end

/-- **What is below a woven file** is a token or comes from weaving a tree below the file. -/
theorem isWoven_below {ts : List Tree} {document : List Token} {u : Tree}
    (hu : u ∈ subtreesOf ((node .file ts).weaveFile document).allChildren) : IsWoven ts u := by
  simp only [weaveFile, allChildren] at hu
  rw [subtreesOf_append, List.mem_append] at hu
  rcases hu with hu | hu
  · exact isWoven_weaveAll ts document u hu
  · obtain ⟨t, ht, hu⟩ := mem_subtreesOf.mp hu
    obtain ⟨s, -, rfl⟩ := List.mem_map.mp ht
    exact .inl ⟨s, by simpa [subtrees] using hu⟩

theorem isWoven_weaveFile {ts : List Tree} {document : List Token} {u : Tree}
    (hu : u ∈ ((node .file ts).weaveFile document).subtrees) :
    u.isNode .file = true ∨ IsWoven ts u := by
  rcases mem_subtrees_iff.mp hu with rfl | hu
  · exact .inl rfl
  · exact .inr (isWoven_below hu)

mutual
theorem IsTolerated.not_file_of_below : ∀ {t : Tree}, t.IsTolerated flavor →
    ∀ u ∈ subtreesOf t.allChildren, u.isNode .file = false
  | token s, _, u, hu => by simp [allChildren, subtreesOf] at hu
  | node n cs, h, u, hu => not_file_of_mem_subtreesOf (fun c hc => h.of_mem hc) u hu
theorem not_file_of_mem_subtreesOf : ∀ {cs : List Tree},
    (∀ c ∈ cs, c.IsTolerated flavor ∧ c.isNode .file = false) →
      ∀ u ∈ subtreesOf cs, u.isNode .file = false
  | [], _, u, hu => by simp [subtreesOf] at hu
  | c :: cs, h, u, hu => by
    rw [subtreesOf, List.mem_append] at hu
    obtain ⟨⟨hc, hfile⟩, hall⟩ := List.forall_mem_cons.mp h
    rcases hu with hu | hu
    · rcases mem_subtrees_iff.mp hu with rfl | hu
      · exact hfile
      · exact hc.not_file_of_below u hu
    · exact not_file_of_mem_subtreesOf hall u hu
end

end Tree

end QuestScript
