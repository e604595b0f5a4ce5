import QuestScript.Proofs.Check.Complete
import QuestScript.Proofs.Check.Hom

/-! # Checking the image of a document

A checker may have the image of another one's document (`Checker.IsImage`): the same document laid out
otherwise, or without its hidden tokens. The two decide everything alike but may find other spans, of which
it is said which are the same. Two reports are *alike* if they end alike and their findings are made in the
same way of spans that are the same (`Report.Alike`): then they tell of the same problems
(`Report.Alike.problems`), and they are equal if only equal spans are the same (`Report.Alike.eq`). Every
check at a place is like the check at its image, and so are the walks (`Checker.IsImage.checkPlaces`). -/

namespace QuestScript

variable {same : Span → Span → Prop}

/-! ### Reports that are alike -/

/-- The spans are missing for the same reason, or both are found and the same. -/
inductive SpansAlike (same : Span → Span → Prop) :
    Except AnalysisError Span → Except AnalysisError Span → Prop
  | missing (e : AnalysisError) : SpansAlike same (.error e) (.error e)
  | found {r s : Span} (h : same r s) : SpansAlike same (.ok r) (.ok s)

theorem SpansAlike.of_eq {x y : Except AnalysisError Span} (h : x = y) : SpansAlike Eq x y := by
  rw [h]
  cases y with
  | error e => exact .missing e
  | ok r => exact .found rfl

/-- The findings are made in the same way of spans that are the same. No check looks up more than two. -/
inductive Finding.Alike (same : Span → Span → Prop) : Finding → Finding → Prop
  | made (problem : Problem) (range : Span → Span → Span) (fixes : Span → Span → List QuickFix)
      {r s r' s' : Span} (hr : same r r') (hs : same s s') :
      Alike same ⟨range r s, problem, fixes r s⟩ ⟨range r' s', problem, fixes r' s'⟩

namespace Report

/-- The reports end alike, and their findings are alike one by one. -/
structure Alike (same : Span → Span → Prop) (a b : Report) : Prop where
  findings : List.Forall₂ (Finding.Alike same) a.findings b.findings
  aborted : a.aborted = b.aborted

theorem Alike.problems {a b : Report} (h : a.Alike same b) :
    a.findings.map (·.problem) = b.findings.map (·.problem) := by
  rw [← List.forall₂_eq_eq_eq, List.forall₂_map_left_iff, List.forall₂_map_right_iff]
  refine h.findings.imp fun x y hxy => ?_
  cases hxy
  rfl

theorem Alike.eq {a b : Report} (h : a.Alike Eq b) : a = b := by
  have hfindings : List.Forall₂ Eq a.findings b.findings := by
    refine h.findings.imp fun x y hxy => ?_
    cases hxy with
    | made problem range fixes hr hs => rw [hr, hs]
  rw [List.forall₂_eq_eq_eq] at hfindings
  obtain ⟨findings, aborted⟩ := a
  obtain ⟨rfl, rfl⟩ : findings = b.findings ∧ aborted = b.aborted := ⟨hfindings, h.aborted⟩
  rfl

theorem Alike.refl (a : Report) : a.Alike Eq a := by
  refine ⟨List.forall₂_same.mpr fun x _ => ?_, rfl⟩
  have hrange : x.range = x.range := rfl
  exact .made x.problem (fun r _ => r) (fun _ _ => x.fixes) hrange hrange

theorem alike_nothing : nothing.Alike same nothing := ⟨.nil, rfl⟩

theorem Alike.andThen {a a' b b' : Report} (ha : a.Alike same a') (hb : b.Alike same b') :
    (a.andThen b).Alike same (a'.andThen b') := by
  rw [Report.andThen, Report.andThen, ← ha.aborted]
  split
  · exact ha
  · exact ⟨List.rel_append ha.findings hb.findings, hb.aborted⟩

theorem alike_all {α : Type} {xs : List α} {a b : α → Report} (h : ∀ x ∈ xs, (a x).Alike same (b x)) :
    (all (xs.map a)).Alike same (all (xs.map b)) := by
  induction xs with
  | nil => exact alike_nothing
  | cons x xs ih =>
    exact (h x List.mem_cons_self).andThen (ih fun y hy => h y (List.mem_cons_of_mem _ hy))

section Spans
variable {x y x' y' : Except AnalysisError Span} (problem : Problem)

theorem alike_span (h : SpansAlike same x y) (fixes : Span → List QuickFix) :
    (of (do let range ← x; return [⟨range, problem, fixes range⟩])).Alike same
      (of (do let range ← y; return [⟨range, problem, fixes range⟩])) := by
  cases h with
  | missing e => exact ⟨.nil, rfl⟩
  | found hr => exact ⟨.cons (.made problem (fun r _ => r) (fun r _ => fixes r) hr hr) .nil, rfl⟩

theorem alike_spans (h : SpansAlike same x y) (h' : SpansAlike same x' y') (range : Span → Span → Span)
    (fixes : Span → Span → List QuickFix) :
    (of (do let r ← x; let s ← x'; return [⟨range r s, problem, fixes r s⟩])).Alike same
      (of (do let r ← y; let s ← y'; return [⟨range r s, problem, fixes r s⟩])) := by
  cases h with
  | missing e => exact ⟨.nil, rfl⟩
  | found hr =>
    cases h' with
    | missing e => exact ⟨.nil, rfl⟩
    | found hs => exact ⟨.cons (.made problem range fixes hr hs) .nil, rfl⟩

end Spans

end Report

/-! ### Images of documents -/

/-- The second checker has the image of the first one's document, and where that finds the span of a tree,
it finds one that is the same. -/
structure Checker.IsImage (same : Span → Span → Prop) (f : Token → Token) (g : Tree → Tree)
    (h : Place → Place) (c d : Checker) : Prop where
  isMove : Token.IsMove f
  isHom : Place.IsHom f g h
  flavor : d.parse.flavor = c.parse.flavor
  casings : d.casings = c.casings
  catalog : d.catalog = c.catalog.map f g
  /-- No other token of the document has the image of a token that declares a state. -/
  declaration : ∀ s ∈ c.catalog.states, ∀ t, Tree.token t ∈ c.parse.tree.subtrees →
    f s.declaration = f t → s.declaration = t
  spans : ∀ t ∈ c.parse.tree.subtrees, SpansAlike same (c.parse.spanOf t) (d.parse.spanOf (g t))
  mainExists : c.checkMainExists.Alike same d.checkMainExists

namespace Checker.IsImage
variable {f : Token → Token} {g : Tree → Tree} {h : Place → Place} {c d : Checker} {p : Place}
  (hc : IsImage same f g h c d)
include hc
open Report

theorem span_focus (hp : p.IsIn c.parse.tree) :
    SpansAlike same (c.parse.spanOf p.focus) (d.parse.spanOf (h p).focus) := by
  rw [hc.isHom.focus]
  exact hc.spans _ hp.focus

/-! ### Invocations -/

theorem checkType {t : Tree} (ht : t ∈ c.parse.tree.subtrees) (type expected : ValueType) :
    (Invocation.checkType c.parse t type expected).Alike same
      (Invocation.checkType d.parse (g t) type expected) := by
  rw [Invocation.checkType, Invocation.checkType]
  split
  · exact alike_nothing
  · exact alike_span _ (hc.spans t ht) _

theorem checkArguments (b : Builtin) (hp : p.IsIn c.parse.tree) {list : Tree}
    (hlist : list ∈ c.parse.tree.subtrees) :
    (Invocation.checkArguments c.parse b p list).Alike same
      (Invocation.checkArguments d.parse b (h p) (g list)) := by
  have hgiven : ∀ a ∈ Invocation.arguments c.parse.flavor list, a.1 ∈ c.parse.tree.subtrees :=
    fun a ha => Tree.subtrees_trans _ hlist (mem_of_mem_arguments ha).1
  rw [Invocation.checkArguments, Invocation.checkArguments, hc.flavor,
    hc.isHom.arguments hc.isMove.toKeepsKind]
  generalize Invocation.arguments c.parse.flavor list = given at hgiven ⊢
  simp only [List.length_map, ← List.map_drop]
  split
  · exact alike_spans _ (hc.span_focus hp) (hc.spans _ hlist) (fun r s => ⟨r.start, s.stop⟩) _
  · cases hextra : given.drop b.parameters.length with
    | nil =>
      simp only [List.map_nil, List.zip_map_left, List.map_map]
      refine alike_all fun a ha => ?_
      exact hc.checkType (hgiven _ (List.of_mem_zip ha).1) _ _
    | cons first more =>
      have hextra : ∀ a ∈ first :: more, a.1 ∈ c.parse.tree.subtrees := fun a ha =>
        hgiven a (List.mem_of_mem_drop (hextra ▸ ha))
      have hlast := List.getLast_map (f := fun a : Tree × ValueType => (g a.1, a.2))
        (l := first :: more) (by simp)
      simp only [List.map_cons] at hlast ⊢
      rw [hlast]
      exact alike_spans _ (hc.spans _ (hextra first List.mem_cons_self))
        (hc.spans _ (hextra _ (List.getLast_mem _))) (fun r s => ⟨r.start, s.stop⟩) _

theorem invocation (b : Builtin) (hp : p.IsIn c.parse.tree) :
    (Invocation.check c.parse b p).Alike same (Invocation.check d.parse b (h p)) := by
  rw [Invocation.check, Invocation.check]
  refine Alike.andThen ?_ ?_
  · split
    · exact alike_span _ (hc.span_focus hp) _
    · exact alike_nothing
  · rw [hc.isHom.argumentList?]
    cases hlist : Invocation.argumentList? p with
    | none => exact alike_nothing
    | some list =>
      have hnext : p.next? = some list := (Option.filter_eq_some_iff.mp hlist).1
      exact hc.checkArguments b hp (hp.next? hnext)

/-! ### Names -/

theorem unresolved (hp : p.IsIn c.parse.tree) (hhidden : p.focus.isHidden = false) (kind : SymbolKind)
    (name : String) : (c.unresolved p kind name).Alike same (d.unresolved (h p) kind name) := by
  rw [Checker.unresolved, Checker.unresolved, hc.catalog, Catalog.names_map hc.isMove,
    hc.isHom.ancestor? hhidden]
  by_cases hkind : kind = .state
  · simp only [if_pos hkind]
    cases hblock : p.ancestor? .stateBlock with
    | none => exact alike_span _ (hc.span_focus hp) _
    | some block =>
      -- The fix that declares the state needs the end of the block around the name.
      have hend := hc.spans _ (hp.ancestor? hblock)
      rw [← hc.isHom.focus] at hend
      exact alike_spans _ (hc.span_focus hp) hend (fun r _ => r) _
  · simp only [if_neg hkind]
    exact alike_span _ (hc.span_focus hp) _

theorem checkCasing (hp : p.IsIn c.parse.tree) (name declared : String) :
    (c.checkCasing p name declared).Alike same (d.checkCasing (h p) name declared) := by
  rw [Checker.checkCasing, Checker.checkCasing]
  split
  · exact alike_nothing
  · exact alike_span _ (hc.span_focus hp) _

theorem checkReference (hp : p.IsIn c.parse.tree) (name : String) :
    (c.checkReference p name).Alike same (d.checkReference (h p) name) := by
  rw [Checker.checkReference, Checker.checkReference, hc.flavor, hc.isHom.classify hc.isMove]
  cases hclassify : classify c.parse.flavor p with
  | none => exact alike_nothing
  | some kind =>
    simp only [hc.catalog, Catalog.lookup?_map hc.isMove]
    cases c.catalog.lookup? kind name with
    | none => exact hc.unresolved hp (isHidden_of_classify hclassify) kind name
    | some symbol =>
      simp only [Option.map_some, Symbol.builtin?_map, Symbol.name_map hc.isMove]
      refine Alike.andThen ?_ (hc.checkCasing hp _ _)
      cases symbol.builtin? with
      | none => exact alike_nothing
      | some b => exact hc.invocation b hp

/-! ### Keywords -/

theorem checkKeyword (hp : p.IsIn c.parse.tree) (t : Token) :
    (c.checkKeyword p t).Alike same (d.checkKeyword (h p) (f t)) := by
  simp only [Checker.checkKeyword, hc.casings, hc.isMove.kind, hc.isMove.text]
  split
  · exact alike_nothing
  · exact alike_span _ (hc.span_focus hp) _

/-! ### Blocks -/

theorem redeclaredMain (hp : p.IsIn c.parse.tree) :
    (c.redeclaredMain p).Alike same (d.redeclaredMain (h p)) := by
  rw [Checker.redeclaredMain, Checker.redeclaredMain, hc.isHom.focus, hc.isHom.child?]
  cases hkeyword : p.focus.child? 0 with
  | none => exact ⟨.nil, rfl⟩
  | some keyword =>
    have hspan := hc.spans _ (Tree.mem_subtrees_of_child? hp.focus hkeyword)
    exact alike_spans _ (hc.spans _ hp.focus) hspan (fun _ s => s) _

theorem checkMainBlock (seen : Bool) (hp : p.IsIn c.parse.tree) :
    (c.checkMainBlock seen p).Alike same (d.checkMainBlock seen (h p)) := by
  rw [Checker.checkMainBlock, Checker.checkMainBlock, hc.isHom.focus, hc.isHom.attributes]
  simp only [hc.isHom.repeatedAttributes hc.isMove, List.map_map]
  refine Alike.andThen ?_ (alike_all fun a ha => ?_)
  · split
    · exact hc.redeclaredMain hp
    · exact alike_nothing
  · have hattribute := List.mem_filter.mp (mem_of_mem_repeatedAttributes ha)
    exact alike_span _ (hc.spans _ (Tree.mem_subtrees_of_children hp.focus hattribute.1)) _

theorem checkStateName {name : Token} (hname : Tree.token name ∈ c.parse.tree.subtrees) :
    (c.checkStateName name).Alike same (d.checkStateName (f name)) := by
  rw [Checker.checkStateName, Checker.checkStateName, hc.catalog, hc.isMove.text,
    Catalog.statesNamed_map hc.isMove]
  cases hstates : c.catalog.statesNamed name.text with
  | nil => exact alike_nothing
  | cons first others =>
    cases others with
    | nil => exact alike_nothing
    | cons second more =>
      have hfirst : first ∈ c.catalog.states := by
        have hmem : first ∈ c.catalog.statesNamed name.text := by simp [hstates]
        exact (List.mem_filter.mp hmem).1
      have hsame : (first.map f g).declaration = f name ↔ first.declaration = name :=
        ⟨hc.declaration first hfirst name hname, congrArg f⟩
      simp only [List.map_cons, hsame, ← hc.isHom.map_token]
      split
      · exact alike_nothing
      · exact alike_span _ (hc.spans _ hname) _

theorem checkStateBlock (hp : p.IsIn c.parse.tree) :
    (c.checkStateBlock p).Alike same (d.checkStateBlock (h p)) := by
  have hname : ((h p).focus.child? 1).bind Tree.token? =
      ((p.focus.child? 1).bind Tree.token?).map f := by
    rw [hc.isHom.focus, hc.isHom.child?, Option.bind_map, Option.map_bind]
    congr 1
    funext t
    exact hc.isHom.token? t
  rw [Checker.checkStateBlock, Checker.checkStateBlock, hname, hc.isHom.focus, hc.isHom.descriptions]
  cases htoken : (p.focus.child? 1).bind Tree.token? with
  | none => exact alike_nothing
  | some name =>
    simp only [Option.map_some, hc.isMove.kind]
    split
    · refine (hc.checkStateName (mem_subtrees_of_childToken hp.focus htoken)).andThen ?_
      rw [← List.map_drop, List.map_map]
      refine alike_all fun t ht => alike_span _ (hc.spans t ?_) _
      exact (mem_subtrees_of_descriptions hp.focus (List.mem_of_mem_drop ht)).1
    · exact alike_nothing

theorem checkGoto (hp : p.IsIn c.parse.tree) (hhidden : p.focus.isHidden = false) :
    (c.checkGoto p).Alike same (d.checkGoto (h p)) := by
  simp only [Checker.checkGoto, hc.isHom.parent? p hhidden, Option.any_map, hc.isHom.isCondition]
  split
  · exact alike_span _ (hc.span_focus hp) _
  · exact alike_nothing

/-! ### The walk -/

/-- **What is found at a place is found at its image.** -/
theorem checkPlace (seen : Bool) (hp : p.IsIn c.parse.tree) :
    (c.checkPlace seen p).Alike same (d.checkPlace seen (h p)) := by
  have hfocus := hc.isHom.focus p
  unfold Checker.checkPlace
  cases ht : p.focus with
  | token t =>
    rw [hfocus, ht, hc.isHom.map_token]
    dsimp only
    rw [hc.isMove.text]
    exact (hc.checkReference hp t.text).andThen (hc.checkKeyword hp t)
  | node k cs =>
    obtain ⟨ds, hds⟩ := hc.isHom.exists_node k cs
    rw [hfocus, ht, hds]
    cases k with
    | mainBlock => exact hc.checkMainBlock seen hp
    | stateBlock => exact hc.checkStateBlock hp
    | gotoExpression => exact hc.checkGoto hp (ht ▸ rfl)
    | _ => exact alike_nothing

/-- **A walk over places finds what a walk over their images does.** -/
theorem checkPlaces (seen : Bool) {ps : List Place} (hps : ∀ p ∈ ps, p.IsIn c.parse.tree) :
    (c.checkPlaces seen ps).Alike same (d.checkPlaces seen (ps.map h)) := by
  induction ps generalizing seen with
  | nil =>
    rw [List.map_nil, Checker.checkPlaces, Checker.checkPlaces]
    split
    · exact alike_nothing
    · exact hc.mainExists
  | cons p ps ih =>
    obtain ⟨hp, hps⟩ := List.forall_mem_cons.mp hps
    rw [List.map_cons, Checker.checkPlaces, Checker.checkPlaces, hc.isHom.focus, hc.isHom.isNode]
    exact (hc.checkPlace seen hp).andThen (ih _ hps)

end Checker.IsImage

end QuestScript
