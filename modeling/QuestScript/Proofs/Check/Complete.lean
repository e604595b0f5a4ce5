import QuestScript.Proofs.Check.Walk
import QuestScript.Proofs.Grammar.Robust
import QuestScript.Proofs.Grammar.Solid

/-! # Checks are completed

A check ends early only where the span of a tree is not found or a block has no keyword. Neither
happens in the tree of a document (`Checker.Surveys`): apart from the file its nodes start and end
with significant tokens (`Parse.exists_spanOf`), and those are tokens of the document. So every check
at every place is completed, and the walk comes to all places outside skipped tokens
(`Parse.check_complete`). -/

namespace QuestScript

/-! ### Reports -/

namespace Report
variable {a b : Report}

theorem eq_findings (h : a.aborted = none) : a = ⟨a.findings, none⟩ := by
  rw [← h]

theorem aborted_andThen (ha : a.aborted = none) (hb : b.aborted = none) :
    (a.andThen b).aborted = none := by
  rw [andThen, ha]
  exact hb

theorem aborted_all {rs : List Report} (h : ∀ r ∈ rs, r.aborted = none) : (all rs).aborted = none := by
  induction rs with
  | nil => rfl
  | cons r rs ih =>
    exact aborted_andThen (h r List.mem_cons_self) (ih fun s hs => h s (List.mem_cons_of_mem _ hs))

end Report

/-! ### What a checker surveys -/

/-- The checker finds the spans of what is in and below the tree, and each node there has its shape. -/
structure Checker.Surveys (c : Checker) (root : Tree) : Prop where
  span : ∀ u ∈ root.subtrees, u.isNode .file = false → ∃ s, c.parse.spanOf u = .ok s
  shape : ∀ u ∈ root.subtrees, u.HasShape

theorem Tree.isNode_file_of_isNode {t : Tree} {k : NodeKind} (h : t.isNode k = true)
    (hk : k ≠ .file) : t.isNode .file = false := by
  rw [isNode_iff] at h
  simp [isNode, h, hk]

namespace Checker
variable {c : Checker} {root : Tree} {p : Place} {t : Token}

theorem Surveys.span_node (hc : c.Surveys root) {u : Tree} {k : NodeKind} (hu : u ∈ root.subtrees)
    (h : u.isNode k = true) (hk : k ≠ .file) : ∃ s, c.parse.spanOf u = .ok s :=
  hc.span u hu (Tree.isNode_file_of_isNode h hk)

/-! ### Invocations -/

theorem eq_of_argument? {flavor : Flavor} {u : Tree} {x : Tree × ValueType}
    (h : Invocation.argument? flavor u = some x) :
    x.1 = u ∧ u.isNode (Grammar.argumentKind flavor) = true := by
  by_cases hnode : u.isNode (Grammar.argumentKind flavor) = true
  · simp only [Invocation.argument?, hnode, guard_true, Option.bind_eq_bind,
      Option.bind_eq_some_iff] at h
    obtain ⟨_, -, _, -, _, -, _, -, _, -, type, -, hx⟩ := h
    cases hx
    exact ⟨rfl, hnode⟩
  · simp [Invocation.argument?, hnode] at h

theorem mem_of_mem_arguments {flavor : Flavor} {list : Tree} {x : Tree × ValueType}
    (h : x ∈ Invocation.arguments flavor list) :
    x.1 ∈ list.subtrees ∧ x.1.isNode (Grammar.argumentKind flavor) = true := by
  unfold Invocation.arguments at h
  split at h
  · rename_i t ht
    split at h
    · obtain ⟨u, hu, hx⟩ := List.mem_filterMap.mp h
      obtain ⟨hfst, hnode⟩ := eq_of_argument? hx
      have hlist := Tree.mem_subtrees_of_child? list.self_mem_subtrees ht
      rw [hfst]
      exact ⟨Tree.mem_subtrees_of_children hlist hu, hnode⟩
    · cases h
  · cases h

section Invocation
variable (hc : c.Surveys root)
include hc

theorem Surveys.span_argument {list : Tree} (hlist : list ∈ root.subtrees) {x : Tree × ValueType}
    (hx : x ∈ Invocation.arguments c.parse.flavor list) : ∃ s, c.parse.spanOf x.1 = .ok s := by
  obtain ⟨hmem, hnode⟩ := mem_of_mem_arguments hx
  refine hc.span_node (Tree.subtrees_trans root hlist hmem) hnode ?_
  cases c.parse.flavor <;> simp [Grammar.argumentKind]

theorem aborted_checkArguments (b : Builtin) {name : Place} {list : Tree}
    (hname : ∃ s, c.parse.spanOf name.focus = .ok s) (hlist : list ∈ root.subtrees)
    (hnode : list.isNode .argumentList = true) :
    (Invocation.checkArguments c.parse b name list).aborted = none := by
  obtain ⟨nameSpan, hnameSpan⟩ := hname
  obtain ⟨listSpan, hlistSpan⟩ := hc.span_node hlist hnode (by simp)
  have hargument := fun x hx => hc.span_argument hlist (x := x) hx
  unfold Invocation.checkArguments
  dsimp only
  split
  · rw [hnameSpan, hlistSpan]
    rfl
  · split
    · rename_i first more hdrop
      have hmem : ∀ x ∈ first :: more, x ∈ Invocation.arguments c.parse.flavor list :=
        fun x hx => List.mem_of_mem_drop (hdrop ▸ hx)
      obtain ⟨firstSpan, hfirst⟩ := hargument first (hmem first List.mem_cons_self)
      obtain ⟨lastSpan, hlast⟩ := hargument _ (hmem _ (List.getLast_mem (List.cons_ne_nil first more)))
      rw [hfirst, hlast]
      rfl
    · refine Report.aborted_all fun r hr => ?_
      obtain ⟨⟨x, parameter⟩, hx, rfl⟩ := List.mem_map.mp hr
      obtain ⟨s, hs⟩ := hargument x (List.of_mem_zip hx).1
      simp only [Invocation.checkType, hs]
      split <;> rfl

theorem aborted_checkInvocation (hp : p.IsIn root) (hspan : ∃ s, c.parse.spanOf p.focus = .ok s)
    (b : Builtin) : (Invocation.check c.parse b p).aborted = none := by
  refine Report.aborted_andThen ?_ ?_
  · obtain ⟨s, hs⟩ := hspan
    rw [hs]
    split <;> rfl
  · split
    · rename_i list hlist
      obtain ⟨hnext, hnode⟩ := Option.filter_eq_some_iff.mp hlist
      rw [Bool.and_eq_true] at hnode
      exact aborted_checkArguments hc b hspan (hp.next? hnext) hnode.1
    · rfl

end Invocation

/-! ### Names and keywords -/

section Names
variable (hc : c.Surveys root) (hp : p.IsIn root) (ht : p.focus = .token t)
include hc hp ht

theorem Surveys.span_token : ∃ s, c.parse.spanOf p.focus = .ok s :=
  hc.span _ hp.focus (by rw [ht]; rfl)

theorem aborted_unresolved (kind : SymbolKind) (name : String) :
    (c.unresolved p kind name).aborted = none := by
  obtain ⟨s, hs⟩ := hc.span_token hp ht
  unfold unresolved
  rw [hs]
  by_cases hkind : kind = .state
  · simp only [if_pos hkind]
    cases hblock : p.ancestor? .stateBlock with
    | none => rfl
    | some block =>
      have hnode := List.find?_some hblock
      obtain ⟨stop, hstop⟩ := hc.span_node (hp.ancestor? hblock) hnode (by simp)
      simp only [hstop]
      rfl
  · simp only [if_neg hkind]
    rfl

theorem aborted_checkReference (name : String) : (c.checkReference p name).aborted = none := by
  obtain ⟨s, hs⟩ := hc.span_token hp ht
  unfold checkReference
  split
  · rfl
  · split
    · exact aborted_unresolved hc hp ht _ name
    · refine Report.aborted_andThen ?_ ?_
      · split
        · exact aborted_checkInvocation hc hp ⟨s, hs⟩ _
        · rfl
      · unfold checkCasing
        rw [hs]
        split <;> rfl

theorem aborted_checkKeyword : (c.checkKeyword p t).aborted = none := by
  obtain ⟨s, hs⟩ := hc.span_token hp ht
  unfold checkKeyword
  dsimp only
  rw [hs]
  split <;> rfl

end Names

/-! ### Blocks -/

theorem mem_of_mem_repeatedAttributes {ts : List Tree} {seen : List String} {x : String × Tree}
    (h : x ∈ repeatedAttributes seen ts) : x.2 ∈ ts := by
  fun_induction repeatedAttributes seen ts with
  | case1 => cases h
  | case2 seen u us _ ih => exact List.mem_cons_of_mem _ (ih h)
  | case3 seen u us keyword _ name _ ih =>
    rcases List.mem_cons.mp h with rfl | h
    · exact List.mem_cons_self
    · exact List.mem_cons_of_mem _ (ih h)
  | case4 seen u us keyword _ name _ ih => exact List.mem_cons_of_mem _ (ih h)

theorem mem_subtrees_of_childToken {u : Tree} {name : Token} {i : Nat} (hu : u ∈ root.subtrees)
    (h : (u.child? i).bind Tree.token? = some name) : .token name ∈ root.subtrees := by
  obtain ⟨v, hv, hname⟩ := Option.bind_eq_some_iff.mp h
  cases v with
  | token s =>
    obtain rfl : s = name := Option.some.inj hname
    exact Tree.mem_subtrees_of_child? hu hv
  | node k cs => cases hname

theorem mem_subtrees_of_descriptions {u v : Tree} (hu : u ∈ root.subtrees)
    (h : v ∈ descriptions u) : v ∈ root.subtrees ∧ v.isNode .description = true := by
  obtain ⟨hv, hnode⟩ := List.mem_filter.mp h
  obtain ⟨statement, hstatement, hv⟩ := List.mem_filterMap.mp hv
  have hstatement := Tree.mem_subtrees_of_children hu (List.mem_filter.mp hstatement).1
  exact ⟨Tree.mem_subtrees_of_child? hstatement hv, hnode⟩

theorem aborted_checkStateName (hc : c.Surveys root) {name : Token}
    (h : .token name ∈ root.subtrees) : (c.checkStateName name).aborted = none := by
  obtain ⟨s, hs⟩ := hc.span _ h rfl
  unfold checkStateName
  split
  · rw [hs]
    split <;> rfl
  · rfl

section Blocks
variable (hc : c.Surveys root) (hp : p.IsIn root)
include hc hp

theorem aborted_redeclaredMain (hmain : p.focus.isNode .mainBlock = true) :
    (c.redeclaredMain p).aborted = none := by
  obtain ⟨s, cs, hcs, hs⟩ := (hc.shape _ hp.focus).leader .mainBlock .main rfl hmain
  have hchild : p.focus.child? 0 = some (.token s) := by
    have hhidden : (Tree.token s).isHidden = false := by
      simp [Tree.isHidden, Token.isHidden, hs, TokenKind.isHidden, TokenKind.isTrivia]
    simp [Tree.child?, Tree.children, hcs, hhidden]
  obtain ⟨block, hblock⟩ := hc.span_node hp.focus hmain (by simp)
  obtain ⟨keyword, hkeyword⟩ := hc.span _ (Tree.mem_subtrees_of_child? hp.focus hchild) rfl
  unfold redeclaredMain
  rw [hchild, hblock]
  dsimp only
  rw [hkeyword]
  rfl

theorem aborted_checkMainBlock (hmain : p.focus.isNode .mainBlock = true) (seen : Bool) :
    (c.checkMainBlock seen p).aborted = none := by
  refine Report.aborted_andThen ?_ (Report.aborted_all fun r hr => ?_)
  · split
    · exact aborted_redeclaredMain hc hp hmain
    · rfl
  · obtain ⟨⟨name, u⟩, hu, rfl⟩ := List.mem_map.mp hr
    obtain ⟨hchild, hnode⟩ := List.mem_filter.mp (mem_of_mem_repeatedAttributes hu)
    obtain ⟨s, hs⟩ := hc.span_node (Tree.mem_subtrees_of_children hp.focus hchild) hnode (by simp)
    dsimp only [repeatedAttribute]
    rw [hs]
    rfl

theorem aborted_checkStateBlock : (c.checkStateBlock p).aborted = none := by
  unfold checkStateBlock
  split
  · rename_i name hname
    split
    · refine Report.aborted_andThen ?_ (Report.aborted_all fun r hr => ?_)
      · exact aborted_checkStateName hc (mem_subtrees_of_childToken hp.focus hname)
      · obtain ⟨u, hu, rfl⟩ := List.mem_map.mp hr
        obtain ⟨hu, hnode⟩ := mem_subtrees_of_descriptions hp.focus (List.mem_of_mem_drop hu)
        obtain ⟨s, hs⟩ := hc.span_node hu hnode (by simp)
        unfold repeatedDescription
        rw [hs]
        rfl
    · rfl
  · rfl

theorem aborted_checkGoto (hgoto : p.focus.isNode .gotoExpression = true) :
    (c.checkGoto p).aborted = none := by
  obtain ⟨s, hs⟩ := hc.span_node hp.focus hgoto (by simp)
  unfold checkGoto
  rw [hs]
  dsimp only
  split <;> rfl

/-- **Every check at a place is completed.** -/
theorem aborted_checkPlace (seen : Bool) : (c.checkPlace seen p).aborted = none := by
  unfold checkPlace
  split
  · rename_i t ht
    exact Report.aborted_andThen (aborted_checkReference hc hp ht _) (aborted_checkKeyword hc hp ht)
  · rename_i cs hfocus
    exact aborted_checkMainBlock hc hp (by rw [hfocus]; rfl) seen
  · exact aborted_checkStateBlock hc hp
  · rename_i cs hfocus
    exact aborted_checkGoto hc hp (by rw [hfocus]; rfl)
  · rfl

end Blocks

/-! ### The walk -/

/-- The places that a walk comes to, each with whether a main block has been seen before it. -/
def visits : (mainSeen : Bool) → List Place → List (Bool × Place)
  | _, [] => []
  | mainSeen, p :: ps => (mainSeen, p) :: visits (mainSeen || p.focus.isNode .mainBlock) ps

/-- What is found at the end of a walk over the places. -/
def closing (c : Checker) (mainSeen : Bool) (ps : List Place) : List Finding :=
  if mainSeen || ps.any (·.focus.isNode .mainBlock) then [] else c.checkMainExists.findings

theorem map_visits (seen : Bool) (ps : List Place) : (visits seen ps).map (·.2) = ps := by
  induction ps generalizing seen with
  | nil => rfl
  | cons p ps ih => rw [visits, List.map_cons, ih]

/-- **A walk over places in the tree is completed**: it makes the check at each. -/
theorem checkPlaces_eq (hc : c.Surveys root) {ps : List Place} (hps : ∀ p ∈ ps, p.IsIn root)
    (seen : Bool) : c.checkPlaces seen ps =
      ⟨(visits seen ps).flatMap (fun v => (c.checkPlace v.1 v.2).findings) ++ c.closing seen ps, none⟩ := by
  induction ps generalizing seen with
  | nil =>
    cases seen
    · exact Report.eq_findings c.aborted_checkMainExists
    · rfl
  | cons p ps ih =>
    obtain ⟨hp, hps⟩ := List.forall_mem_cons.mp hps
    rw [checkPlaces, ih hps, Report.andThen, aborted_checkPlace hc hp seen, visits, List.flatMap_cons,
      closing, closing, List.any_cons, Bool.or_assoc, List.append_assoc]

end Checker

/-! ### Skipped tokens -/

namespace Place
variable {root : Tree} {p : Place}

/-- The place is in no node around a skipped token, nor is it one. -/
def IsSound (p : Place) : Prop :=
  p.focus.isNode .error = false ∧ ∀ a ∈ p.ancestors, a.focus.isNode .error = false

theorem isNode_error_of_mem_nodesAround {k : NodeKind} {cs : List Tree} :
    ∀ {path : List Frame}, (∀ a ∈ nodesAround (.node k cs) path, a.focus.HasShape) →
      ∀ a ∈ nodesAround (.node k cs) path, a.focus.isNode .error = false := by
  intro path
  induction path generalizing k cs with
  | nil =>
    intro _ a ha
    cases ha
  | cons f path ih =>
    intro hshape a ha
    rw [nodesAround] at hshape ha
    obtain ⟨hfirst, hrest⟩ := List.forall_mem_cons.mp hshape
    rcases List.mem_cons.mp ha with rfl | ha
    · refine Bool.eq_false_iff.mpr fun herror => ?_
      obtain ⟨s, hs⟩ := hfirst.skipped herror
      have hmem : Tree.node k cs ∈ [Tree.token s] := by
        rw [← hs]
        exact List.mem_append_right _ List.mem_cons_self
      cases List.mem_singleton.mp hmem
    · exact ih hrest a ha

/-- **The places that come from no syntax error** are those outside the nodes around skipped
tokens. -/
theorem isError_eq_false_iff (hp : p.IsIn root) (hroot : ∀ u ∈ root.subtrees, u.HasShape) :
    p.isError = false ↔ p.IsSound := by
  have hshape : ∀ a ∈ p.ancestors, a.focus.HasShape := fun a ha => hroot _ (hp.around a ha)
  obtain ⟨_ | ⟨k, cs⟩, path⟩ := p
  · cases path with
    | nil => simp [isError, IsSound, parentKind?, ancestors, nodesAround, Tree.isNode, Tree.kind]
    | cons f path =>
      rw [ancestors, nodesAround] at hshape
      have habove := isNode_error_of_mem_nodesAround (List.forall_mem_cons.mp hshape).2
      rw [IsSound, ancestors, nodesAround, List.forall_mem_cons]
      constructor
      · intro h
        exact ⟨rfl, by simpa [isError, parentKind?, Tree.isNode, Tree.kind] using h, habove⟩
      · rintro ⟨-, h, -⟩
        simpa [isError, parentKind?, Tree.isNode, Tree.kind] using h
  · have habove := isNode_error_of_mem_nodesAround hshape
    constructor
    · intro h
      exact ⟨by simpa [isError, Tree.isNode, Tree.kind] using h, habove⟩
    · rintro ⟨h, -⟩
      simpa [isError, Tree.isNode, Tree.kind] using h

end Place

/-! ### Documents -/

theorem Tree.exists_spanOf {p : Parse} {t : Tree} (ht : Tight t.leaves)
    (hlocate : ∀ s ∈ t.leaves, p.locate s = .ok s) :
    ∃ first last, t.leaves.head? = some first ∧ first.isSignificant = true ∧
      t.leaves.getLast? = some last ∧ last.isSignificant = true ∧
      p.spanOf t = .ok ⟨first.span.start, last.span.stop⟩ := by
  obtain ⟨⟨first, hfirst, hfirstSig⟩, last, hlast, hlastSig⟩ := ht
  have hfind : ∀ {ls : List Token} {s : Token}, s ∈ ls.head? → s.isSignificant = true →
      ls.find? (·.isSignificant) = some s := by
    intro ls s hs hsig
    obtain ⟨ls, rfl⟩ := List.head?_eq_some_iff.mp hs
    exact List.find?_cons_of_pos hsig
  have hfirst? : t.firstToken? = some first := hfind hfirst hfirstSig
  have hlast? : t.lastToken? = some last := hfind (List.head?_reverse ▸ hlast) hlastSig
  refine ⟨first, last, hfirst, hfirstSig, hlast, hlastSig, ?_⟩
  rw [Parse.spanOf, Parse.bounds, hfirst?, hlast?]
  simp only [hlocate first (List.mem_of_mem_head? hfirst), hlocate last (List.mem_of_mem_getLast? hlast)]
  rfl

/-- Where arguments are too many, the first that is too many and the last are there. -/
theorem Invocation.checkArguments_of_length_lt (p : Parse) (b : Builtin) (name : Place) (list : Tree)
    (hrequired : b.requiredCount ≤ (arguments p.flavor list).length)
    (htotal : b.parameters.length < (arguments p.flavor list).length) :
    ∃ first last, (arguments p.flavor list)[b.parameters.length]? = some first ∧
      1 ≤ (arguments p.flavor list).length ∧
      (arguments p.flavor list)[(arguments p.flavor list).length - 1]? = some last ∧
      checkArguments p b name list = .of do
        let start := (← p.spanOf first.1).start
        let stop := (← p.spanOf last.1).stop
        return [.plain ⟨start, stop⟩ (.argumentCount b.requiredCount b.parameters.length
          (arguments p.flavor list).length)] := by
  generalize hgiven : arguments p.flavor list = given at *
  have hlast : given.getLast? = given[given.length - 1]? := List.getLast?_eq_getElem?
  obtain ⟨first, more, hdrop⟩ := List.exists_cons_of_ne_nil
    (List.ne_nil_of_length_pos (l := given.drop b.parameters.length) (by rw [List.length_drop]; omega))
  have hfirst : given[b.parameters.length]? = some first := by
    rw [← List.head?_drop, hdrop, List.head?_cons]
  have hend : given.getLast? = some ((first :: more).getLast (List.cons_ne_nil _ _)) := by
    rw [← List.getLast?_eq_some_getLast, ← hdrop, List.getLast?_drop, if_neg (by omega)]
  refine ⟨first, _, hfirst, by omega, hlast ▸ hend, ?_⟩
  unfold checkArguments
  simp only [hgiven, hdrop, if_neg (Nat.not_lt.mpr hrequired)]

namespace Parse
variable (flavor : Flavor) (source : String)

/-- **Apart from the file every node of the full tree starts and ends with a significant token**, so
its span is found. -/
theorem exists_spanOf {u : Tree} (hu : u ∈ (parse flavor source).fullTree.subtrees)
    (hfile : u.isNode .file = false) (hhidden : u.isHidden = false) :
    ∃ first last, u.leaves.head? = some first ∧ first.isSignificant = true ∧
      u.leaves.getLast? = some last ∧ last.isSignificant = true ∧
      (parse flavor source).spanOf u = .ok ⟨first.span.start, last.span.stop⟩ := by
  refine Tree.exists_spanOf ?_ fun s hs => ?_
  · rcases Tree.isWoven_weaveFile hu with h | ⟨s, rfl⟩ | ⟨t, ht, document, rfl⟩
    · rw [h] at hfile
      cases hfile
    · have hs : s.isSignificant = true := Tree.isSignificant_iff.mpr hhidden
      exact ⟨⟨s, by simp, hs⟩, ⟨s, by simp, hs⟩⟩
    · have htree : t ∈ (parse flavor source).tree.subtrees := Tree.mem_subtrees_node.mpr (.inr ht)
      have hsig : ∀ l ∈ t.leaves, l.isSignificant = true := fun l hl =>
        (List.mem_filter.mp ((leaves_sublist_significant flavor source htree).subset hl)).2
      refine Tree.tight_weave t document ((isTolerated_tree flavor source).subtrees t htree) ?_ hsig
      match t with
      | .token s => rfl
      | .node n [] => simpa [Tree.weave] using hfile
      | .node n (c :: cs) => simpa [Tree.weave, Tree.isNode, Tree.kind] using hfile
  · have hmem := Tree.leaves_subset _ hu hs
    rw [leaves_fullTree] at hmem
    exact locate_of_mem_document flavor source hmem

theorem surveys (casings : List String) :
    ((parse flavor source).checker casings).Surveys (parse flavor source).tree := by
  have htree := isTolerated_tree flavor source
  refine ⟨fun u hu hfile => ⟨_, Checker.spanOf_eq ?_ fun s hs => ?_⟩, fun u hu =>
    (htree.subtrees u hu).hasShape⟩
  · exact (htree.subtrees u hu).leaves_ne_nil hfile
  · exact Checker.knows_of_mem rfl ((leaves_sublist_significant flavor source hu).subset hs)

/-- **The analysis of a document is always completed.** Apart from the file every node of the full
tree starts and ends with a significant token, and its span reaches from the one to the other. The
walk makes the check at every place outside skipped tokens, in document order, and none ends it
early; the arguments that it looks up by index are there, and an indentation is within its line. -/
theorem check_complete (flavor : Flavor) (source : String) (casings : List String) :
    let p := parse flavor source
    let c := p.checker casings
    p.check casings =
        ⟨(Checker.visits false c.places).flatMap (fun v => (c.checkPlace v.1 v.2).findings) ++
          c.closing false c.places, none⟩ ∧
      (Checker.visits false c.places).map (·.2) = c.places ∧
      c.places.Sublist (Place.root p.fullTree.withoutHidden).descendants ∧
      (∀ q, q ∈ c.places ↔ q ∈ (Place.root p.fullTree.withoutHidden).descendants ∧ q.IsSound) ∧
      (∀ u ∈ p.fullTree.subtrees, u.isNode .file = false → u.isHidden = false →
        ∃ first last, u.leaves.head? = some first ∧ first.isSignificant = true ∧
          u.leaves.getLast? = some last ∧ last.isSignificant = true ∧
          p.spanOf u = .ok ⟨first.span.start, last.span.stop⟩) ∧
      (∀ (b : Builtin) (name : Place) (list : Tree),
        let given := Invocation.arguments flavor list
        b.requiredCount ≤ given.length → b.parameters.length < given.length →
          ∃ first last, given[b.parameters.length]? = some first ∧ 1 ≤ given.length ∧
            given[given.length - 1]? = some last ∧
            Invocation.checkArguments p b name list = .of do
              let start := (← p.spanOf first.1).start
              let stop := (← p.spanOf last.1).stop
              return [.plain ⟨start, stop⟩
                (.argumentCount b.requiredCount b.parameters.length given.length)]) ∧
      ∀ t : Token, c.indentBefore t ≤ t.span.start.column := by
  intro p c
  have hplaces : ∀ q ∈ c.places, q.IsIn p.tree :=
    fun q hq => Place.isIn_of_mem_descendants (List.mem_filter.mp hq).1
  have hsurveys : c.Surveys p.tree := surveys flavor source casings
  have htree : p.fullTree.withoutHidden = p.tree := withoutHidden_fullTree flavor source
  rw [htree]
  refine ⟨?_, Checker.map_visits _ _, List.filter_sublist, fun q => ?_, fun u hu => ?_, ?_, ?_⟩
  · exact Checker.checkPlaces_eq hsurveys hplaces false
  · rw [Checker.places, List.mem_filter]
    refine and_congr_right fun hq => ?_
    rw [Bool.not_eq_true']
    exact Place.isError_eq_false_iff (Place.isIn_of_mem_descendants hq) hsurveys.shape
  · exact exists_spanOf flavor source hu
  · exact fun b name list => Invocation.checkArguments_of_length_lt p b name list
  · exact fun t => Nat.min_le_right _ _

end Parse

end QuestScript
