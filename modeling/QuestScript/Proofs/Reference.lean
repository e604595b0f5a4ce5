import QuestScript.Proofs.Exact
import QuestScript.Proofs.Grammar.Robust
import QuestScript.Proofs.Grammar.Solid
import QuestScript.Reference

/-! # What stands where a reference does

The significant children of a node spell out its rule (`Tree.Spells`), so the rule tells what can
stand at the index of a reference. In a document that follows the grammar, and in every EOSERV quest,
that is a name. In an official statement without its name, something that comes after the name takes
its index: the list of arguments, the `goto` of a rule, a semicolon or a skipped token
(`kind_of_classify`). -/

namespace QuestScript

/-! ### Spelling out rules -/

/-- The significant children of every node in and below the tree spell out the node's rule; a skipped
token is in a node of its own. -/
def Tree.Spells (l : Leniency) (flavor : Flavor) (root : Tree) : Prop :=
  ∀ k cs, .node k cs ∈ root.subtrees → k ≠ .error →
    (Tree.node k cs).children.map Tree.kind ∈ (ruleOf l flavor k).matches'

section Spells
variable {flavor : Flavor} {t : Tree}

theorem Tree.spells_of_withoutHidden {l : Leniency}
    (h : ∀ k cs, .node k cs ∈ t.withoutHidden.subtrees → k ≠ .error →
      cs.map Tree.kind ∈ (ruleOf l flavor k).matches') : t.Spells l flavor := by
  intro k cs hmem hk
  rw [map_kind_children]
  have hmem := mem_subtrees_withoutHidden t hmem rfl
  rw [withoutHidden] at hmem ⊢
  exact h k _ hmem hk

theorem Tree.IsTolerated.spells (h : t.withoutHidden.IsTolerated flavor) :
    t.Spells .lenient flavor := by
  refine spells_of_withoutHidden fun k cs hmem hk => ?_
  cases h.subtrees _ hmem with
  | skipped s => exact absurd rfl hk
  | node hcs _ => exact hcs

theorem Tree.IsDerivation.spells (h : t.withoutHidden.IsDerivation flavor) :
    t.Spells .strict flavor := by
  refine spells_of_withoutHidden fun k cs hmem _ => ?_
  cases h.subtrees _ hmem with
  | node hcs _ =>
    rw [← production_eq]
    exact hcs

end Spells

theorem Parse.spells_of_mem (flavor : Flavor) (source : String) {root : Tree} {p : Parse}
    (hp : p = QuestScript.parse flavor source)
    (hroot : root ∈ [p.tree, p.fullTree]) :
    root.Spells .lenient flavor ∧ (p.errors = [] → root.Spells .strict flavor) := by
  subst hp
  have hwithout : root.withoutHidden = (QuestScript.parse flavor source).tree := by
    rcases List.mem_cons.mp hroot with rfl | hroot
    · refine Tree.withoutHidden_eq_self _ fun l hl => ?_
      rw [Parse.leaves_tree] at hl
      exact (List.mem_filter.mp hl).2
    · rw [List.mem_singleton.mp hroot]
      exact Parse.withoutHidden_fullTree flavor source
  refine ⟨Tree.IsTolerated.spells ?_, fun herrors => Tree.IsDerivation.spells ?_⟩
  · rw [hwithout]
    exact Parse.isTolerated_tree flavor source
  · rw [hwithout]
    exact Grammar.isDerivation_of_errors_eq_nil herrors

/-! ### Words at an index -/

section Words
variable {l : Leniency} {flavor : Flavor} {root : Tree} {p : Place} {k : NodeKind}
open Rhs

/-- The rule of the parent matches a word with the kind of the place at its index. -/
theorem Place.exists_word (hroot : root.Spells l flavor) (hp : p.IsIn root)
    (hk : p.parentKind? = some k) (herror : k ≠ .error) {i : Nat} (hi : p.index? = some i) :
    ∃ w ∈ (ruleOf l flavor k).matches', w[i]? = some p.focus.kind := by
  obtain ⟨before, after, path, hframe⟩ := exists_frame hk
  rw [hframe] at hi hp
  refine ⟨_, hroot k _ (hp.around _ List.mem_cons_self) herror, ?_⟩
  rw [List.getElem?_map]
  exact congrArg (Option.map Tree.kind) (child?_index hi)

/-- In that word the kind of the sibling before the place comes right before. -/
theorem Place.exists_word_previous? (hroot : root.Spells l flavor) (hp : p.IsIn root)
    (hk : p.parentKind? = some k) (herror : k ≠ .error) {i : Nat} (hi : p.index? = some (i + 1)) {u : Tree}
    (hu : p.previous? = some u) : ∃ w ∈ (ruleOf l flavor k).matches', w[i]? = some u.kind := by
  obtain ⟨before, after, path, hframe⟩ := exists_frame hk
  rw [hframe] at hi hu hp
  have hchildren := hroot k _ (hp.around _ List.mem_cons_self) herror
  refine ⟨_, hchildren, ?_⟩
  dsimp only
  rw [List.getElem?_map]
  exact congrArg (Option.map Tree.kind) (child?_previous hi hu)

theorem Place.exists_word_isLast (hroot : root.Spells l flavor) (hp : p.IsIn root)
    (hk : p.parentKind? = some k) (herror : k ≠ .error) (hlast : p.isLast = true) {u : Tree}
    (hu : p.previous? = some u) :
    ∃ v, v ++ [u.kind, p.focus.kind] ∈ (ruleOf l flavor k).matches' := by
  obtain ⟨before, after, path, hframe⟩ := exists_frame hk
  rw [hframe] at hlast hu hp
  obtain ⟨siblings, hsiblings, hprevious⟩ := children_isLast hlast
  rw [hprevious] at hu
  obtain ⟨first, rfl⟩ := List.getLast?_eq_some_iff.mp hu
  have hmem := hroot k _ (hp.around _ List.mem_cons_self) herror
  refine ⟨first.map Tree.kind, ?_⟩
  change (Tree.node k (before.reverse ++ p.focus :: after)).children.map Tree.kind ∈ _ at hmem
  rwa [hsiblings, List.map_append, List.map_append, List.append_assoc] at hmem

theorem Place.kind_previous?_mem (hroot : root.Spells l flavor) (hp : p.IsIn root)
    (hk : p.parentKind? = some k) (herror : k ≠ .error) {u : Tree} (hu : p.previous? = some u) :
    u.kind ∈ (ruleOf l flavor k).symbols := by
  obtain ⟨before, after, path, hframe⟩ := exists_frame hk
  rw [hframe] at hu hp
  have hfind : before.find? (!·.isHidden) = some u := hu
  have hshown := List.find?_some hfind
  have hchild : u ∈ (Tree.node k (before.reverse ++ p.focus :: after)).children :=
    List.mem_filter.mpr ⟨List.mem_append_left _
      (List.mem_reverse.mpr (List.mem_of_find?_eq_some hfind)), hshown⟩
  exact mem_symbols (hroot k _ (hp.around _ List.mem_cons_self) herror)
    (List.mem_map_of_mem hchild)

theorem Rhs.mem_symbols_sequence {first : TokenKind} {es : List Rhs} {w : List Kind} {i : Nat}
    {x : Kind} (hw : w ∈ (sequence (token first :: es)).matches') (hi : w[i + 1]? = some x) :
    x ∈ (sequence es).symbols := by
  obtain ⟨u, hu, v, hv, rfl⟩ := mem_sequence_cons.mp hw
  rw [mem_token.mp hu] at hi
  exact mem_symbols hv (List.mem_of_getElem? hi)

end Words

/-! ### References -/

/-- What may stand in the place of a name that an official statement lacks. -/
def Kind.slips : List Kind :=
  [.node .error, .node .argumentList, .token (.keyword .goto), .token .semicolon]

section Classify
variable {flavor : Flavor} {root : Tree} {p : Place} {k : SymbolKind}
open Rhs Leniency

theorem exists_shape (h : classify flavor p = some k) :
    ∃ s ∈ Shape.ofFlavor flavor, s.anchor.holds p = true ∧ s.after.all (Shape.follows · p) = true ∧
      s.kind = k := by
  obtain ⟨s, hs, rfl⟩ := Option.map_eq_some_iff.mp h
  have hholds := List.find?_some hs
  simp only [Shape.holds, Bool.and_eq_true] at hholds
  exact ⟨s, List.mem_of_find?_eq_some hs, hholds.1, hholds.2, rfl⟩

/-- A reference of an official quest is in a rule or an action, after the keyword or after a `goto`. -/
theorem exists_parent_official (h : classify .official p = some k) :
    (p.parentKind? = some .rule ∧
        (p.index? = some 1 ∨ p.index? = some 4 ∧ Shape.follows "goto" p = true)) ∨
      p.parentKind? = some .action ∧ p.index? = some 1 := by
  obtain ⟨s, hs, hanchor, hafter, -⟩ := exists_shape h
  simp only [Shape.ofFlavor, Shape.official, List.mem_cons, List.not_mem_nil, or_false] at hs
  rcases hs with rfl | rfl | rfl <;>
    simp only [Anchor.holds, Slot.holds, Bool.and_eq_true, beq_iff_eq] at hanchor
  · exact .inl ⟨hanchor.1, .inl hanchor.2⟩
  · exact .inl ⟨hanchor.1, .inr ⟨hanchor.2, hafter⟩⟩
  · exact .inr hanchor

/-- A reference of an EOSERV quest comes first in an invocation, and then it is none to a state, or last
after a `goto`. -/
theorem exists_parent_eoserv (h : classify .eoserv p = some k) :
    (k ≠ .state ∧ p.parentKind? = some .invocationExpression ∧ p.index? = some 0) ∨
      p.parentKind? = some .gotoExpression ∧ p.isLast = true ∧ ∃ u, p.previous? = some u := by
  obtain ⟨s, hs, hanchor, hafter, rfl⟩ := exists_shape h
  have hcallee : ∀ statements i, (Anchor.callee statements i).holds p = true →
      p.parentKind? = some .invocationExpression ∧ p.index? = some 0 := by
    intro statements i hholds
    simp only [Anchor.holds, Anchor.isChildAt, Bool.and_eq_true, beq_iff_eq, Option.any_eq_true,
      List.contains_iff_mem, List.mem_singleton] at hholds
    obtain ⟨⟨⟨j, hj, rfl⟩, hindex⟩, -⟩ := hholds
    exact ⟨hj, hindex⟩
  simp only [Shape.ofFlavor, Shape.eoserv, List.mem_cons, List.not_mem_nil, or_false] at hs
  rcases hs with rfl | rfl | rfl | rfl
  · exact .inl ⟨by simp, hcallee _ _ hanchor⟩
  · exact .inl ⟨by simp, hcallee _ _ hanchor⟩
  · exact .inl ⟨by simp, hcallee _ _ hanchor⟩
  · simp only [Anchor.holds, Slot.holds, Bool.and_eq_true, beq_iff_eq] at hanchor
    rw [Option.all_some, Shape.follows, Option.any_eq_true] at hafter
    obtain ⟨u, hu, -⟩ := hafter
    exact .inr ⟨hanchor.1, hanchor.2, u, hu⟩

/-- **Every reference of an EOSERV quest is a name**, whatever errors there are. -/
theorem kind_of_classify_eoserv (hroot : root.Spells .lenient .eoserv) (hp : p.IsIn root)
    (h : classify .eoserv p = some k) : p.focus.kind = .token .identifier := by
  rcases exists_parent_eoserv h with ⟨-, hparent, hi⟩ | ⟨hparent, hlast, u, hu⟩
  · obtain ⟨w, hw, hx⟩ := Place.exists_word hroot hp hparent (by simp) hi
    obtain ⟨v, hv, _, -, rfl⟩ := mem_sequence_cons.mp hw
    rw [mem_token.mp hv] at hx
    exact (Option.some.inj hx).symm
  · obtain ⟨v, hv⟩ := Place.exists_word_isLast hroot hp hparent (by simp) hlast hu
    obtain ⟨first, hfirst, w, hw, heq⟩ := mem_sequence_cons.mp hv
    obtain ⟨name, hname, last, hlast, rfl⟩ := mem_sequence_cons.mp hw
    rw [mem_token.mp hfirst, mem_sequence_nil.mp hlast] at heq
    -- The `goto` alone has nothing before it, and otherwise the name is last.
    rcases mem_demanded.mp hname with rfl | rfl | rfl
    · simpa using congrArg List.length heq
    · simpa using congrArg List.getLast? heq
    · simpa using congrArg List.getLast? heq

/-- **A reference is a name**, or what has taken its place in an official statement. -/
theorem kind_of_classify (hroot : root.Spells .lenient flavor) (hp : p.IsIn root)
    (h : classify flavor p = some k) :
    p.focus.kind = .token .identifier ∨ flavor = .official ∧ p.focus.kind ∈ Kind.slips := by
  cases flavor with
  | eoserv => exact .inl (kind_of_classify_eoserv hroot hp h)
  | official =>
    have hrule : ∀ x ∈ (sequence [lenient.demanded .identifier, lenient.argumentList,
        lenient.demanded (.keyword .goto), lenient.demanded .identifier, semicolon]).symbols,
        x = .token .identifier ∨ x ∈ Kind.slips := by decide
    have haction : ∀ x ∈ (sequence [lenient.demanded .identifier, lenient.argumentList,
        semicolon]).symbols, x = .token .identifier ∨ x ∈ Kind.slips := by decide
    refine Or.imp_right (⟨rfl, ·⟩) ?_
    rcases exists_parent_official h with ⟨hparent, hi | ⟨hi, -⟩⟩ | ⟨hparent, hi⟩
    · obtain ⟨w, hw, hx⟩ := Place.exists_word hroot hp hparent (by simp) hi
      exact hrule _ (mem_symbols_sequence hw hx)
    · obtain ⟨w, hw, hx⟩ := Place.exists_word hroot hp hparent (by simp) hi
      exact hrule _ (mem_symbols_sequence hw hx)
    · obtain ⟨w, hw, hx⟩ := Place.exists_word hroot hp hparent (by simp) hi
      exact haction _ (mem_symbols_sequence hw hx)

/-- **In a document that follows the grammar every reference is a name.** -/
theorem kind_of_classify_strict (hroot : root.Spells .strict .official) (hp : p.IsIn root)
    (h : classify .official p = some k) : p.focus.kind = .token .identifier := by
  have htoken : ∀ {j : TokenKind} {es : List Rhs} {w : List Kind},
      w ∈ (sequence (token j :: es)).matches' → ∃ v ∈ (sequence es).matches', w = .token j :: v := by
    intro j es w hw
    obtain ⟨u, hu, v, hv, rfl⟩ := mem_sequence_cons.mp hw
    rw [mem_token.mp hu]
    exact ⟨v, hv, rfl⟩
  have hname : ∀ {w v : List Kind} {j : Kind} {es : List Rhs}, w = j :: v →
      v ∈ (sequence (token .identifier :: es)).matches' → w[1]? = some p.focus.kind →
      p.focus.kind = .token .identifier := by
    rintro w v j es rfl hv hx
    obtain ⟨_, -, rfl⟩ := htoken hv
    exact (Option.some.inj hx).symm
  rcases exists_parent_official h with ⟨hparent, hi | ⟨hi, -⟩⟩ | ⟨hparent, hi⟩
  · obtain ⟨w, hw, hx⟩ := Place.exists_word hroot hp hparent (by simp) hi
    obtain ⟨v, hv, heq⟩ := htoken hw
    exact hname heq hv hx
  · obtain ⟨w, hw, hx⟩ := Place.exists_word hroot hp hparent (by simp) hi
    obtain ⟨v₁, h₁, rfl⟩ := htoken hw
    obtain ⟨v₂, h₂, rfl⟩ := htoken h₁
    obtain ⟨list, hlist, v₃, h₃, rfl⟩ := mem_sequence_cons.mp h₂
    obtain ⟨v₄, h₄, rfl⟩ := htoken h₃
    obtain ⟨v₅, h₅, rfl⟩ := htoken h₄
    rw [mem_node.mp hlist] at hx
    exact (Option.some.inj hx).symm
  · obtain ⟨w, hw, hx⟩ := Place.exists_word hroot hp hparent (by simp) hi
    obtain ⟨v, hv, heq⟩ := htoken hw
    exact hname heq hv hx

end Classify

end QuestScript
