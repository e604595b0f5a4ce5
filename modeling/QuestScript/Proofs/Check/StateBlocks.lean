import QuestScript.Proofs.Grammar.Nesting

/-! # Repeated states and descriptions

A state block whose name stands right after its keyword is checked in full: every description after the
first is reported, and the name is if another state has it before (`Parse.state_blocks_accounted`). A
block without a name there is not checked at all, so what it repeats is not reported
(`Parse.exists_unreported`). -/

namespace QuestScript

/-- Another state before has the name. -/
def Problem.isDuplicateState : Problem → Bool
  | duplicateState _ => true
  | _ => false

namespace Catalog

/-- The states whose name has been seen before, whatever the case of its letters. -/
def laterStates : (seen : List String) → List StateSymbol → List StateSymbol
  | _, [] => []
  | seen, s :: ss =>
    let later := laterStates (lowercase s.name :: seen) ss
    if lowercase s.name ∈ seen then s :: later else later

/-- The states that are not the first with their name. -/
def redeclared (catalog : Catalog) : List StateSymbol := laterStates [] catalog.states

variable {catalog : Catalog} {s : StateSymbol}

/-- The first state found by the name of this one is another. -/
def IsLater (catalog : Catalog) (s : StateSymbol) : Prop :=
  (catalog.statesNamed s.name).head?.map (·.declaration) ≠ some s.declaration

instance : Decidable (catalog.IsLater s) := inferInstanceAs (Decidable (¬ _))

theorem isLater_iff {before after : List StateSymbol} (hstates : catalog.states = before ++ s :: after)
    (hnodup : (catalog.states.map (·.declaration)).Nodup) :
    catalog.IsLater s ↔ ∃ e ∈ before, lowercase e.name = lowercase s.name := by
  rw [hstates, List.map_append, List.map_cons] at hnodup
  rw [IsLater, statesNamed, hstates, List.filter_append]
  constructor
  · intro h
    by_contra hnone
    have hbefore : before.filter (fun e => lowercase e.name == lowercase s.name) = [] :=
      List.filter_eq_nil_iff.mpr fun e he heq => hnone ⟨e, he, eq_of_beq heq⟩
    rw [hbefore, List.nil_append, List.filter_cons_of_pos (by simp)] at h
    exact h rfl
  · rintro ⟨e, he, heq⟩
    have hfound : e ∈ before.filter (fun e => lowercase e.name == lowercase s.name) :=
      List.mem_filter.mpr ⟨he, beq_iff_eq.mpr heq⟩
    obtain ⟨first, more, hfirst⟩ := List.exists_cons_of_ne_nil (List.ne_nil_of_mem hfound)
    have hmem : first ∈ before := List.mem_of_mem_filter (hfirst ▸ List.mem_cons_self)
    rw [hfirst, List.cons_append, List.head?_cons, Option.map_some, ne_eq, Option.some.injEq]
    exact (List.nodup_append.mp hnodup).2.2 _ (List.mem_map_of_mem hmem) _ List.mem_cons_self

theorem laterStates_eq_filter (before : List StateSymbol) {ss : List StateSymbol}
    (hstates : catalog.states = before ++ ss) (hnodup : (catalog.states.map (·.declaration)).Nodup) :
    laterStates (before.reverse.map fun s => lowercase s.name) ss = ss.filter catalog.IsLater := by
  induction ss generalizing before with
  | nil => rfl
  | cons s ss ih =>
    have hlater : lowercase s.name ∈ before.reverse.map (fun s => lowercase s.name) ↔
        catalog.IsLater s := by
      simp [isLater_iff hstates hnodup]
    have ih := ih (before ++ [s]) (by simp [hstates])
    rw [List.reverse_append, List.reverse_singleton, List.singleton_append, List.map_cons] at ih
    rw [laterStates, ih]
    by_cases h : catalog.IsLater s
    · rw [if_pos (hlater.mpr h), List.filter_cons_of_pos (by simpa using h)]
    · rw [if_neg (hlater.not.mpr h), List.filter_cons_of_neg (by simpa using h)]

theorem redeclared_eq_filter (hnodup : (catalog.states.map (·.declaration)).Nodup) :
    catalog.redeclared = catalog.states.filter catalog.IsLater :=
  laterStates_eq_filter [] rfl hnodup

end Catalog

namespace Checker
variable {c : Checker} {block : Tree} {name : Token}

/-- The finding for a state that is not the first with its name. -/
def redeclaredState (s : StateSymbol) : Finding :=
  .plain s.declaration.span (.duplicateState s.name)

/-! ### Names of states -/

/-- A name right after the keyword is the first one in the block, so it declares the state. -/
theorem stateOf?_of_stateName? (hblock : block.HasShape) (hstate : block.isNode .stateBlock = true)
    (h : stateName? block = some name) :
    Catalog.stateOf? block = some ⟨name, block, Catalog.description? block⟩ := by
  obtain ⟨hchild, hkind⟩ := Option.filter_eq_some_iff.mp h
  have hkind : name.kind = .identifier := by simpa using hkind
  obtain ⟨s, cs, hcs, hs⟩ := hblock.leader .stateBlock .state rfl hstate
  have hhidden : (Tree.token s).isHidden = false := by
    simp [Tree.isHidden, Token.isHidden, hs, TokenKind.isHidden, TokenKind.isTrivia]
  have hchildren : block.children = .token s :: cs.filter (!·.isHidden) := by
    rw [Tree.children, hcs, List.filter_cons_of_pos (by simp [hhidden])]
  obtain ⟨u, hu, hname⟩ := Option.bind_eq_some_iff.mp hchild
  obtain ⟨more, hmore⟩ : ∃ more, cs.filter (!·.isHidden) = u :: more := by
    rw [Tree.child?, hchildren, List.getElem?_cons_succ] at hu
    cases hrest : cs.filter (!·.isHidden) with
    | nil => rw [hrest] at hu; cases hu
    | cons v more => rw [hrest] at hu; cases hu; exact ⟨more, rfl⟩
  have hfound : Catalog.childToken? block .identifier = some name := by
    rw [Catalog.childToken?, hchildren, hmore, List.filterMap_cons_some (f := Tree.token?) (a := .token s) rfl,
      List.find?_cons_of_neg (by simp [hs]), List.filterMap_cons_some hname,
      List.find?_cons_of_pos (by simp [hkind])]
  rw [Catalog.stateOf?, hfound]
  rfl

theorem stateNameFindings_eq {s : StateSymbol} (hs : s ∈ c.catalog.states) :
    c.stateNameFindings s.declaration =
      if c.catalog.IsLater s then [redeclaredState s] else [] := by
  have hmem : s ∈ c.catalog.statesNamed s.name := List.mem_filter.mpr ⟨hs, by simp⟩
  have htext : s.declaration.text = s.name := rfl
  unfold stateNameFindings
  rw [htext]
  rcases hnamed : c.catalog.statesNamed s.name with _ | ⟨first, _ | ⟨second, more⟩⟩
  · rw [hnamed] at hmem
    cases hmem
  · rw [hnamed, List.mem_singleton] at hmem
    have hlater : ¬ c.catalog.IsLater s := by simp [Catalog.IsLater, hnamed, ← hmem]
    rw [if_neg hlater]
  · have hlater : c.catalog.IsLater s ↔ first.declaration ≠ s.declaration := by
      simp [Catalog.IsLater, hnamed]
    by_cases hfirst : first.declaration = s.declaration <;> simp [hlater, hfirst, redeclaredState]

/-! ### Findings of one kind at a block -/

theorem filter_stateBlockFindings_description (block : Tree) :
    (c.stateBlockFindings block).filter (fun f => f.problem == .duplicateDescription) =
      if (stateName? block).isSome then ((descriptions block).drop 1).map redescription else [] := by
  unfold stateBlockFindings
  cases stateName? block with
  | none => rfl
  | some name =>
    have hname : (c.stateNameFindings name).filter (fun f => f.problem == .duplicateDescription) = [] := by
      refine List.filter_eq_nil_iff.mpr fun f hf => ?_
      unfold stateNameFindings at hf
      split at hf
      · split at hf
        · cases hf
        · rw [List.mem_singleton.mp hf]
          simp [Finding.plain]
      · cases hf
    have hdescriptions : (((descriptions block).drop 1).map redescription).filter
        (fun f => f.problem == .duplicateDescription) = ((descriptions block).drop 1).map redescription := by
      refine List.filter_eq_self.mpr fun f hf => ?_
      obtain ⟨t, -, rfl⟩ := List.mem_map.mp hf
      rfl
    rw [List.filter_append, hname, hdescriptions]
    rfl

theorem filter_stateBlockFindings_state (hblock : block.HasShape)
    (hstate : block.isNode .stateBlock = true)
    (hmem : ∀ s, Catalog.stateOf? block = some s → s ∈ c.catalog.states) :
    (c.stateBlockFindings block).filter (fun f => f.problem.isDuplicateState) =
      (((Catalog.stateOf? block).toList.filter c.catalog.IsLater).filter fun s =>
        stateName? s.block = some s.declaration).map redeclaredState := by
  have hdescriptions : (((descriptions block).drop 1).map redescription).filter
      (fun f => f.problem.isDuplicateState) = [] := by
    refine List.filter_eq_nil_iff.mpr fun f hf => ?_
    obtain ⟨t, -, rfl⟩ := List.mem_map.mp hf
    simp [redescription, Finding.fixable, Problem.isDuplicateState]
  unfold stateBlockFindings
  cases hname : stateName? block with
  | none =>
    cases hs : Catalog.stateOf? block with
    | none => rfl
    | some s =>
      obtain ⟨name, -, rfl⟩ := Option.map_eq_some_iff.mp hs
      have hnone : ∀ ss : List StateSymbol, (∀ s ∈ ss, s.block = block) →
          ss.filter (fun s => stateName? s.block = some s.declaration) = [] := fun ss hss =>
        List.filter_eq_nil_iff.mpr fun s hs => by simp [hss s hs, hname]
      rw [hnone _ fun s hs => ?_]
      · rfl
      · rw [List.mem_singleton.mp (List.mem_filter.mp hs).1]
  | some name =>
    have hs := stateOf?_of_stateName? hblock hstate hname
    have hfindings := stateNameFindings_eq (hmem _ hs)
    dsimp only at hfindings
    rw [hs, Option.toList_some, List.filter_append, hdescriptions, List.append_nil, hfindings]
    split
    · rename_i hother
      rw [List.filter_cons_of_pos (p := fun f : Finding => f.problem.isDuplicateState) rfl,
        List.filter_nil, List.filter_cons_of_pos (by simpa using hother), List.filter_nil,
        List.filter_cons_of_pos (by simpa using hname)]
      rfl
    · rename_i hfirst
      rw [List.filter_cons_of_neg (by simpa using hfirst)]
      rfl

end Checker

/-! ### Documents -/

namespace Parse
open Checker

theorem nodup_declarations (flavor : Flavor) (source : String) :
    ((Catalog.ofParse (parse flavor source)).states.map (·.declaration)).Nodup := by
  have hsub := (isTolerated_tree flavor source).names_sublist
  rw [leaves_tree] at hsub
  have hnames : (Catalog.ofParse (parse flavor source)).states.map (·.declaration) =
      ((parse flavor source).tree.nodes .stateBlock).filterMap (Catalog.childToken? · .identifier) := by
    refine (List.map_filterMap ..).trans (congrArg (List.filterMap · _) (funext fun block => ?_))
    rw [Catalog.stateOf?, Option.map_map]
    exact Option.map_id'
  rw [hnames]
  exact (TokenStream.nodup_significant flavor source).sublist hsub

/-- **State blocks are accounted for** if their name stands right after their keyword, and only then.
Of all descriptions in and below such a block, in document order, each but the first is reported once, on
itself. Of the states of the catalog whose block is such a block, each that is not the first with its
name is reported once, on the token that declares it. -/
theorem state_blocks_accounted (flavor : Flavor) (source : String) (casings : List String) :
    let p := parse flavor source
    (p.findings casings).filter (fun f => f.problem == .duplicateDescription) =
        ((p.tree.nodes .stateBlock).filter fun block => (stateName? block).isSome).flatMap
          (fun block => ((block.nodes .description).drop 1).map redescription) ∧
      (p.findings casings).filter (fun f => f.problem.isDuplicateState) =
        ((Catalog.ofParse p).redeclared.filter fun s =>
          stateName? s.block = some s.declaration).map redeclaredState := by
  intro p
  have htree : p.tree.IsTolerated flavor := isTolerated_tree flavor source
  have hblock : ∀ u ∈ p.tree.nodes .stateBlock, u.IsTolerated flavor ∧ u.isNode .stateBlock = true :=
    fun u hu => ⟨htree.subtrees u (List.mem_filter.mp hu).1, (List.mem_filter.mp hu).2⟩
  constructor
  · rw [filter_findings_stateBlock flavor source casings
      (· == .duplicateDescription) (by rintro x hx; rw [eq_of_beq hx]; rfl)]
    simp only [filter_stateBlockFindings_description]
    rw [flatMap_eq_of_filter (p := fun u => (stateName? u).isSome) fun u _ hu => if_neg hu]
    refine List.flatMap_congr fun u hu => ?_
    obtain ⟨hu, hname⟩ := List.mem_filter.mp hu
    rw [if_pos hname, (hblock u hu).1.nodes_stateBlock (hblock u hu).2]
  · rw [filter_findings_stateBlock flavor source casings Problem.isDuplicateState
      (by intro x hx; cases x <;> first | rfl | cases hx)]
    have hstates : (Catalog.ofParse p).states =
        (p.tree.nodes .stateBlock).flatMap fun u => (Catalog.stateOf? u).toList :=
      List.filterMap_eq_flatMap_toList ..
    rw [Catalog.redeclared_eq_filter (nodup_declarations flavor source), hstates, List.filter_flatMap,
      List.filter_flatMap, List.map_flatMap]
    refine List.flatMap_congr fun u hu => ?_
    refine filter_stateBlockFindings_state (hblock u hu).1.hasShape (hblock u hu).2 fun s hs => ?_
    exact List.mem_filterMap.mpr ⟨u, hu, hs⟩

/-- Where a state has no name nothing that its block repeats is reported, and a skipped token before
the name hides that the state is declared again. -/
theorem exists_unreported :
    ¬ (∀ (flavor : Flavor) (source : String) (casings : List String),
      ((parse flavor source).findings casings).filter (fun f => f.problem == .duplicateDescription) =
        ((parse flavor source).tree.nodes .stateBlock).flatMap
          fun block => ((block.nodes .description).drop 1).map redescription) ∧
    ¬ ∀ (flavor : Flavor) (source : String) (casings : List String),
      ((parse flavor source).findings casings).filter (fun f => f.problem.isDuplicateState) =
        (Catalog.ofParse (parse flavor source)).redeclared.map redeclaredState := by
  constructor
  · intro h
    have hlength := congrArg List.length
      (h .official "main \x7b \x7d state \x7b desc \"a\" desc \"b\" \x7d" [])
    revert hlength
    decide +kernel
  · intro h
    have hlength := congrArg List.length
      (h .official "main \x7b \x7d state A \x7b \x7d state 5 A \x7b \x7d" [])
    revert hlength
    decide +kernel

end Parse

end QuestScript
