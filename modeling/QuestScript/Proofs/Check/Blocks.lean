import QuestScript.Proofs.Check.Catalog
import QuestScript.Proofs.Check.Complete
import QuestScript.Proofs.Check.Inversion

/-! # What is found at blocks

Whatever errors a document has, what the check of a block finds follows from the block
(`Checker.checkMainBlock_eq`, `Checker.checkStateBlock_eq`), and some problems are looked for at blocks
of one kind only (`Problem.block?`). So the findings of such problems are those at the blocks of the
kind, one block after another in document order, where every main block but the first has one before
it (`Parse.filter_findings_mainBlock`, `Parse.filter_findings_stateBlock`). -/

namespace QuestScript

/-- The kind of the blocks at which alone the problem is looked for. -/
def Problem.block? : Problem → Option NodeKind
  | duplicateMain | duplicateAttribute _ => some .mainBlock
  | duplicateState _ | duplicateDescription => some .stateBlock
  | _ => none

/-! ### The places of nodes -/

theorem flatMap_eq_of_filter {α β : Type} {p : α → Bool} {g : α → List β} {xs : List α}
    (h : ∀ x ∈ xs, ¬ p x = true → g x = []) : xs.flatMap g = (xs.filter p).flatMap g := by
  induction xs with
  | nil => rfl
  | cons x xs ih =>
    have ih := ih fun y hy => h y (List.mem_cons_of_mem x hy)
    by_cases hx : p x = true
    · rw [List.filter_cons_of_pos hx, List.flatMap_cons, List.flatMap_cons, ih]
    · rw [List.filter_cons_of_neg hx, List.flatMap_cons, h x List.mem_cons_self hx, List.nil_append, ih]

namespace Place

mutual
theorem map_focus_within : ∀ (path : List Frame) (t : Tree), (within path t).map (·.focus) = t.subtrees
  | path, .token s => by rw [within, Tree.subtrees]; rfl
  | path, .node k cs => by
    rw [within, Tree.subtrees, List.map_cons, map_focus_withinAll k path [] cs]
theorem map_focus_withinAll : ∀ (k : NodeKind) (path : List Frame) (before cs : List Tree),
    (withinAll k path before cs).map (·.focus) = Tree.subtreesOf cs
  | k, path, before, [] => by rw [withinAll, Tree.subtreesOf]; rfl
  | k, path, before, c :: cs => by
    rw [withinAll, Tree.subtreesOf, List.map_append, map_focus_within _ c,
      map_focus_withinAll k path (c :: before) cs]
end

theorem exists_of_mem_subtrees {root t : Tree} (h : t ∈ root.subtrees) :
    ∃ p ∈ (Place.root root).descendants, p.focus = t := by
  rw [← map_focus_within []] at h
  exact List.mem_map.mp h

end Place

namespace Checker
variable {c : Checker} {k : NodeKind} {f : Finding} {p : Place} {seen : Bool}

/-- The walk comes to all nodes of a kind in document order, but for those around skipped tokens. -/
theorem map_focus_places (c : Checker) (hk : k ≠ .error) :
    (c.places.filter (·.focus.isNode k)).map (·.focus) = c.parse.tree.nodes k := by
  have hnode : ∀ q : Place, (!q.isError && q.focus.isNode k) = q.focus.isNode k := by
    intro q
    obtain ⟨t | ⟨n, cs⟩, path⟩ := q
    · simp [Tree.isNode, Tree.kind]
    · by_cases hn : n = k
      · simp [Place.isError, hn, hk]
      · simp [Tree.isNode, Tree.kind, hn]
  have hfilter : c.places.filter (·.focus.isNode k) =
      (Place.root c.parse.tree).descendants.filter (·.focus.isNode k) := by
    rw [places, List.filter_filter]
    exact List.filter_congr fun q _ => by rw [Bool.and_comm, hnode]
  rw [hfilter, Tree.nodes, ← Place.map_focus_within [], List.filter_map]
  rfl

/-- Trees with whether one has been seen before, where one may have been seen before all of them. -/
def marking (seen : Bool) : List Tree → List (Bool × Tree)
  | [] => []
  | t :: ts => (seen, t) :: ts.map (true, ·)

theorem marking_true (ts : List Tree) : marking true ts = ts.map (true, ·) := by
  cases ts <;> rfl

theorem map_snd_marking (seen : Bool) (ts : List Tree) : (marking seen ts).map (·.2) = ts := by
  cases ts <;> simp [marking]

/-- Every main block to which the walk comes is after one, but for the first. -/
theorem filter_visits (seen : Bool) (ps : List Place) :
    ((visits seen ps).filter (·.2.focus.isNode .mainBlock)).map (fun v => (v.1, v.2.focus)) =
      marking seen ((ps.filter (·.focus.isNode .mainBlock)).map (·.focus)) := by
  induction ps generalizing seen with
  | nil => rfl
  | cons p ps ih =>
    rw [visits]
    by_cases hp : p.focus.isNode .mainBlock = true
    · rw [List.filter_cons_of_pos (p := fun v : Bool × Place => v.2.focus.isNode .mainBlock) hp,
        List.filter_cons_of_pos (p := fun q : Place => q.focus.isNode .mainBlock) hp, List.map_cons,
        List.map_cons, hp, Bool.or_true, ih, marking_true]
      rfl
    · rw [List.filter_cons_of_neg (p := fun v : Bool × Place => v.2.focus.isNode .mainBlock) hp,
        List.filter_cons_of_neg (p := fun q : Place => q.focus.isNode .mainBlock) hp,
        Bool.not_eq_true _ |>.mp hp, Bool.or_false, ih]

/-! ### Checks of blocks -/

theorem exists_mainKeyword {block : Tree} (hshape : block.HasShape)
    (hmain : block.isNode .mainBlock = true) :
    ∃ s, block.child? 0 = some (.token s) ∧ s.kind = .keyword .main := by
  obtain ⟨s, cs, hcs, hs⟩ := hshape.leader .mainBlock .main rfl hmain
  have hvisible : (Tree.token s).isHidden = false := by
    simp [Tree.isHidden, Token.isHidden, hs, TokenKind.isHidden, TokenKind.isTrivia]
  exact ⟨s, by simp [Tree.child?, Tree.children, hcs, hvisible], hs⟩

/-- The attributes directly in a main block. -/
def attributes (block : Tree) : List Tree := block.children.filter (·.isNode .mainAttribute)

/-- The finding for a main block with the keyword, after another. -/
def redeclaration (block keyword : Tree) : Finding :=
  .fixable keyword.extent .duplicateMain "Remove duplicate 'main' block" (.delete block.extent)

/-- The finding for an attribute whose keyword, in lowercase, occurs before. -/
def repetition (x : String × Tree) : Finding :=
  .fixable x.2.extent (.duplicateAttribute x.1) s!"Remove duplicate '{x.1}' attribute"
    (.delete x.2.extent)

/-- What is found at a main block, where one may have been seen before. -/
def mainBlockFindings (seen : Bool) (block : Tree) : List Finding :=
  (if seen then (block.child? 0).toList.map (redeclaration block) else []) ++
    (repeatedAttributes [] (attributes block)).map repetition

/-- The name that stands right after the keyword of a state. -/
def stateName? (block : Tree) : Option Token :=
  ((block.child? 1).bind Tree.token?).filter (·.kind = .identifier)

/-- The finding for a description after the first of its state. -/
def redescription (description : Tree) : Finding :=
  .fixable description.extent .duplicateDescription "Remove duplicate 'desc'"
    (.delete description.extent)

/-- What is found at the block of a state. -/
def stateBlockFindings (c : Checker) (block : Tree) : List Finding :=
  match stateName? block with
  | some name => c.stateNameFindings name ++ ((descriptions block).drop 1).map redescription
  | none => []

theorem block?_of_mem_mainBlockFindings {block : Tree} (h : f ∈ mainBlockFindings seen block) :
    f.problem.block? = some .mainBlock := by
  rcases List.mem_append.mp h with h | h
  · cases seen with
    | false => cases h
    | true =>
      obtain ⟨keyword, -, rfl⟩ := List.mem_map.mp h
      rfl
  · obtain ⟨x, -, rfl⟩ := List.mem_map.mp h
    rfl

theorem block?_of_mem_stateBlockFindings {block : Tree} (h : f ∈ c.stateBlockFindings block) :
    f.problem.block? = some .stateBlock := by
  unfold stateBlockFindings at h
  split at h
  · rcases List.mem_append.mp h with h | h
    · unfold stateNameFindings at h
      split at h
      · split at h
        · cases h
        · rw [List.mem_singleton.mp h]
          rfl
      · cases h
    · obtain ⟨description, -, rfl⟩ := List.mem_map.mp h
      rfl
  · cases h

section Blocks
variable {flavor : Flavor} {root : Tree} (htree : root.IsTolerated flavor)
  (hknown : ∀ t ∈ root.leaves, c.Knows t)
include htree hknown

/-- The span of what is below a tree of known tokens is found. -/
theorem spanOf_subtree {u : Tree} (hu : u ∈ root.subtrees) (hfile : u.isNode .file = false) :
    c.parse.spanOf u = .ok u.extent :=
  spanOf_eq ((htree.subtrees u hu).leaves_ne_nil hfile)
    fun s hs => hknown s (Tree.leaves_subset _ hu hs)

/-- **What the check of a main block finds follows from the block.** -/
theorem checkMainBlock_eq (hp : p.focus ∈ root.subtrees) (hmain : p.focus.isNode .mainBlock = true)
    (seen : Bool) : c.checkMainBlock seen p = ⟨mainBlockFindings seen p.focus, none⟩ := by
  have hredeclared : (if seen then c.redeclaredMain p else .nothing) =
      ⟨if seen then (p.focus.child? 0).toList.map (redeclaration p.focus) else [], none⟩ := by
    cases seen with
    | false => rfl
    | true =>
      obtain ⟨s, hchild, -⟩ := exists_mainKeyword (htree.subtrees _ hp).hasShape hmain
      have hblock := spanOf_subtree htree hknown hp (Tree.isNode_file_of_isNode hmain (by simp))
      have hkeyword := spanOf_subtree htree hknown (Tree.mem_subtrees_of_child? hp hchild) rfl
      simp only [if_true, redeclaredMain, hchild, hblock, hkeyword]
      rfl
  have hrepeated : Report.all ((repeatedAttributes [] (attributes p.focus)).map
      fun x => c.repeatedAttribute x.1 x.2) =
      ⟨(repeatedAttributes [] (attributes p.focus)).map repetition, none⟩ := by
    rw [List.map_eq_flatMap (f := repetition)]
    refine Report.all_found fun x hx => ?_
    obtain ⟨hchild, hnode⟩ := List.mem_filter.mp (mem_of_mem_repeatedAttributes hx)
    have hspan := spanOf_subtree htree hknown (Tree.mem_subtrees_of_children hp hchild)
      (Tree.isNode_file_of_isNode hnode (by simp))
    simp only [repeatedAttribute, hspan]
    rfl
  unfold checkMainBlock
  exact (congrArg₂ Report.andThen hredeclared hrepeated).trans (Report.andThen_found _ _)

/-- **What the check of a state finds follows from its block.** -/
theorem checkStateBlock_eq (hp : p.focus ∈ root.subtrees) :
    c.checkStateBlock p = ⟨c.stateBlockFindings p.focus, none⟩ := by
  unfold checkStateBlock stateBlockFindings stateName?
  cases hname : (p.focus.child? 1).bind Tree.token? with
  | none => rfl
  | some name =>
    by_cases hkind : name.kind = .identifier
    · have hknows : c.Knows name := hknown _ (Tree.leaves_subset _ (mem_subtrees_of_childToken hp hname)
        (by simp))
      have hrepeated : Report.all (((descriptions p.focus).drop 1).map c.repeatedDescription) =
          ⟨((descriptions p.focus).drop 1).map redescription, none⟩ := by
        rw [List.map_eq_flatMap (f := redescription)]
        refine Report.all_found fun t ht => ?_
        obtain ⟨hmem, hnode⟩ := mem_subtrees_of_descriptions hp (List.mem_of_mem_drop ht)
        have hspan := spanOf_subtree htree hknown hmem (Tree.isNode_file_of_isNode hnode (by simp))
        simp only [repeatedDescription, hspan]
        rfl
      simp only [Option.filter, hkind, decide_true, if_true, checkStateName_eq hknows, hrepeated]
      rfl
    · simp [Option.filter, hkind, Report.nothing]

/-- Problems that are looked for at blocks of one kind are found there only. -/
theorem isNode_of_mem_checkPlace (hp : p.focus ∈ root.subtrees)
    (h : f ∈ (c.checkPlace seen p).findings) (hf : f.problem.block? = some k) :
    p.focus.isNode k = true := by
  cases hfocus : p.focus with
  | token t =>
    have hfinds := finds_of_mem_checkPlace h
    cases hfinds with
    | duplicateMain hkeyword => simp [hfocus, Tree.child?, Tree.children, Tree.allChildren] at hkeyword
    | duplicateAttribute hmem =>
      simp [hfocus, Tree.children, Tree.allChildren, repeatedAttributes] at hmem
    | duplicateState hname => simp [hfocus, Tree.child?, Tree.children, Tree.allChildren] at hname
    | duplicateDescription hmem =>
      simp [hfocus, descriptions, Tree.children, Tree.allChildren] at hmem
    | _ => cases hf
  | node n cs =>
    unfold checkPlace at h
    rw [hfocus] at h
    split at h
    · cases ‹Tree.node n cs = .token _›
    · rename_i hmain
      rw [checkMainBlock_eq htree hknown hp (by rw [hfocus, hmain]; rfl)] at h
      have hblock := (block?_of_mem_mainBlockFindings h).symm.trans hf
      rw [hmain, ← Option.some.inj hblock]
      rfl
    · rename_i hstate
      rw [checkStateBlock_eq htree hknown hp] at h
      have hblock := (block?_of_mem_stateBlockFindings h).symm.trans hf
      rw [hstate, ← Option.some.inj hblock]
      rfl
    · unfold checkGoto at h
      dsimp only at h
      split at h
      · obtain ⟨range, -, rfl⟩ := mem_findings_of_span h
        cases hf
      · cases h
    · cases h

end Blocks

end Checker

/-! ### Documents -/

namespace Parse
variable (flavor : Flavor) (source : String) (casings : List String) {k : NodeKind}

theorem block?_of_mem_syntaxFindings {p : Parse} {f : Finding} (h : f ∈ p.syntaxFindings) :
    f.problem.block? = none := by
  have hsyntactic := isSyntactic_of_mem_syntaxFindings h
  revert hsyntactic
  cases f.problem <;> first | exact fun _ => rfl | rintro ⟨⟩

theorem knows_of_mem_leaves {t : Token} (ht : t ∈ (parse flavor source).tree.leaves) :
    ((parse flavor source).checker casings).Knows t :=
  Checker.knows_of_mem rfl (leaves_tree flavor source ▸ ht)

theorem spanOf?_eq_extent {t : Tree} (ht : t ∈ (parse flavor source).tree.subtrees)
    (hfile : t.isNode .file = false) : (parse flavor source).spanOf? t = some t.extent := by
  have hspan := Checker.spanOf_subtree (c := (parse flavor source).checker [])
    (isTolerated_tree flavor source) (fun s hs => knows_of_mem_leaves flavor source [] hs) ht hfile
  have hspan : (parse flavor source).spanOf t = .ok t.extent := hspan
  rw [spanOf?, hspan]
  rfl

theorem focus_of_mem_visits {v : Bool × Place}
    (hv : v ∈ Checker.visits false ((parse flavor source).checker casings).places) :
    v.2.focus ∈ (parse flavor source).tree.subtrees := by
  have hplace := List.mem_map_of_mem (f := Prod.snd) hv
  rw [Checker.map_visits] at hplace
  exact (Place.isIn_of_mem_descendants (List.mem_filter.mp hplace).1).focus

/-- **What is found in a document**, whatever errors it has: what the lexer and the parser find, what the
check at each place finds, and at last that there is no main block. -/
theorem findings_eq :
    let p := parse flavor source
    let c := p.checker casings
    p.findings casings = p.syntaxFindings ++
      ((Checker.visits false c.places).flatMap (fun v => (c.checkPlace v.1 v.2).findings) ++
        if p.tree.nodes .mainBlock = [] then c.checkMainExists.findings else []) := by
  intro p c
  have hplaces : ∀ q ∈ c.places, q.IsIn p.tree :=
    fun q hq => Place.isIn_of_mem_descendants (List.mem_filter.mp hq).1
  have hmains : p.tree.nodes .mainBlock = [] ↔ c.places.any (·.focus.isNode .mainBlock) = false := by
    show c.parse.tree.nodes .mainBlock = [] ↔ _
    rw [← Checker.map_focus_places c (by simp), List.map_eq_nil_iff, List.filter_eq_nil_iff,
      List.any_eq_false]
  have hclosing : c.closing false c.places =
      if p.tree.nodes .mainBlock = [] then c.checkMainExists.findings else [] := by
    rw [Checker.closing, Bool.false_or]
    by_cases hnil : p.tree.nodes .mainBlock = []
    · rw [if_pos hnil, hmains.mp hnil, if_neg (by simp)]
    · rw [if_neg hnil, if_pos (Bool.not_eq_false _ ▸ fun h => hnil (hmains.mpr h))]
  rw [← hclosing]
  exact congrArg (p.syntaxFindings ++ Report.findings ·)
    (Checker.checkPlaces_eq (surveys flavor source casings) hplaces false)

theorem filter_findings (keep : Problem → Bool) (hkeep : ∀ x, keep x = true → x.block? = some k) :
    let p := parse flavor source
    let c := p.checker casings
    (p.findings casings).filter (fun f => keep f.problem) =
      ((Checker.visits false c.places).filter (·.2.focus.isNode k)).flatMap
        fun v => (c.checkPlace v.1 v.2).findings.filter fun f => keep f.problem := by
  intro p c
  have hnone : ∀ f : Finding, f.problem.block? = none → ¬ keep f.problem = true := by
    intro f hf hkept
    rw [hkeep _ hkept] at hf
    cases hf
  have hsyntax : p.syntaxFindings.filter (fun f => keep f.problem) = [] :=
    List.filter_eq_nil_iff.mpr fun f hf => hnone f (block?_of_mem_syntaxFindings hf)
  have hclosing : (if p.tree.nodes .mainBlock = [] then c.checkMainExists.findings else []).filter
      (fun f => keep f.problem) = [] := by
    refine List.filter_eq_nil_iff.mpr fun f hf => hnone f ?_
    split at hf
    · obtain ⟨t, -, rfl⟩ := Checker.of_mem_checkMainExists hf
      rfl
    · cases hf
  rw [findings_eq, List.filter_append, hsyntax, List.nil_append, List.filter_append, hclosing,
    List.append_nil, List.filter_flatMap]
  refine flatMap_eq_of_filter fun v hv hnode => List.filter_eq_nil_iff.mpr fun f hf hkept => hnode ?_
  exact Checker.isNode_of_mem_checkPlace (isTolerated_tree flavor source)
    (fun t ht => knows_of_mem_leaves flavor source casings ht)
    (focus_of_mem_visits flavor source casings hv) hf (hkeep _ hkept)

/-- **What is found at main blocks** follows from each block and from whether it is the first. -/
theorem filter_findings_mainBlock (keep : Problem → Bool)
    (hkeep : ∀ x, keep x = true → x.block? = some .mainBlock) :
    let p := parse flavor source
    (p.findings casings).filter (fun f => keep f.problem) =
      (Checker.marking false (p.tree.nodes .mainBlock)).flatMap
        fun v => (Checker.mainBlockFindings v.1 v.2).filter fun f => keep f.problem := by
  intro p
  let c := p.checker casings
  have hmains : Checker.marking false (p.tree.nodes .mainBlock) =
      ((Checker.visits false c.places).filter (·.2.focus.isNode .mainBlock)).map
        fun v => (v.1, v.2.focus) := by
    rw [Checker.filter_visits, Checker.map_focus_places c (by simp)]
    rfl
  rw [filter_findings flavor source casings keep hkeep, hmains, List.flatMap_map]
  refine List.flatMap_congr fun v hv => ?_
  obtain ⟨hv, hnode⟩ := List.mem_filter.mp hv
  have hcheck : c.checkPlace v.1 v.2 = c.checkMainBlock v.1 v.2 := by
    unfold Checker.checkPlace
    split <;> first | rfl | simp_all [Tree.isNode, Tree.kind]
  rw [hcheck, Checker.checkMainBlock_eq (isTolerated_tree flavor source)
    (fun t ht => knows_of_mem_leaves flavor source casings ht)
    (focus_of_mem_visits flavor source casings hv) hnode]

/-- **What is found at the blocks of states** follows from each block. -/
theorem filter_findings_stateBlock (keep : Problem → Bool)
    (hkeep : ∀ x, keep x = true → x.block? = some .stateBlock) :
    let p := parse flavor source
    (p.findings casings).filter (fun f => keep f.problem) =
      (p.tree.nodes .stateBlock).flatMap
        fun u => ((p.checker casings).stateBlockFindings u).filter fun f => keep f.problem := by
  intro p
  let c := p.checker casings
  have hstates : p.tree.nodes .stateBlock =
      ((Checker.visits false c.places).filter (·.2.focus.isNode .stateBlock)).map (·.2.focus) := by
    have hplaces : ((Checker.visits false c.places).filter (·.2.focus.isNode .stateBlock)).map (·.2) =
        c.places.filter (·.focus.isNode .stateBlock) := by
      conv_rhs => rw [← Checker.map_visits false c.places]
      rw [List.filter_map]
      rfl
    exact (Checker.map_focus_places c (by simp)).symm.trans (by rw [← hplaces, List.map_map]; rfl)
  rw [filter_findings flavor source casings keep hkeep, hstates, List.flatMap_map]
  refine List.flatMap_congr fun v hv => ?_
  obtain ⟨hv, hnode⟩ := List.mem_filter.mp hv
  have hcheck : c.checkPlace v.1 v.2 = c.checkStateBlock v.2 := by
    unfold Checker.checkPlace
    split <;> first | rfl | simp_all [Tree.isNode, Tree.kind]
  rw [hcheck, Checker.checkStateBlock_eq (isTolerated_tree flavor source)
    (fun t ht => knows_of_mem_leaves flavor source casings ht)
    (focus_of_mem_visits flavor source casings hv)]

end Parse

end QuestScript
