import QuestScript.Proofs.Check.Findings

/-! # The walk over a statement

Where the references of a statement stand (`classify_official`, `classify_callee`,
`classify_target`), and what the walk over the tree of a statement finds: what there is at its sites
(`walks_statement`). -/

namespace QuestScript

open Ast

/-! ### Where references stand -/

section Places
variable {t : Tree} {f : Frame} {path : List Frame}

theorem Place.index?_eq (ht : t.isHidden = false) (hf : ∀ s ∈ f.before, s.isHidden = false) :
    (⟨t, f :: path⟩ : Place).index? = some f.before.length := by
  have hbefore : f.before.filter (!·.isHidden) = f.before :=
    List.filter_eq_self.mpr fun s hs => by rw [hf s hs]; rfl
  simp only [index?, ht, hbefore]
  rfl

theorem Anchor.isChildAt_eq (kinds : List NodeKind) (index : Nat) (ht : t.isHidden = false)
    (hf : ∀ s ∈ f.before, s.isHidden = false) :
    isChildAt kinds index ⟨t, f :: path⟩ =
      (kinds.contains f.kind && decide (f.before.length = index)) := by
  rw [isChildAt, Place.index?_eq ht hf]
  rfl

/-- **The references of official quests** stand directly in a rule or in an action. -/
theorem classify_official (ht : t.isHidden = false) (hf : ∀ s ∈ f.before, s.isHidden = false) :
    classify .official ⟨t, f :: path⟩ =
      if f.kind = .rule ∧ f.before.length = 1 then some .rule
      else if f.kind = .rule ∧ f.before.length = 4 ∧ Shape.follows "goto" ⟨t, f :: path⟩ then
        some .state
      else if f.kind = .action ∧ f.before.length = 1 then some .action
      else none := by
  have hindex : (⟨t, f :: path⟩ : Place).index? = some f.before.length := Place.index?_eq ht hf
  have hchild : ∀ kind n, Anchor.holds (.child kind (.at n)) ⟨t, f :: path⟩ =
      decide (f.kind = kind ∧ f.before.length = n) := by
    intro kind n
    rw [Anchor.holds, Slot.holds, hindex, Bool.decide_and]
    rfl
  simp only [classify, Shape.ofFlavor, Shape.official, List.find?_cons, Shape.holds, hchild]
  by_cases hrule : f.kind = .rule
  · simp only [hrule]
    by_cases hone : f.before.length = 1
    · simp [hone]
    · by_cases hfour : f.before.length = 4
      · cases hfollows : Shape.follows "goto" ⟨t, f :: path⟩ <;> simp [hfour, hfollows]
      · simp [hone, hfour]
  · by_cases haction : f.kind = .action
    · by_cases hone : f.before.length = 1 <;> simp [haction, hone]
    · simp [hrule, haction]

theorem classify_eoserv (hinvocation : f.kind ≠ .invocationExpression)
    (hgoto : f.kind ≠ .gotoExpression) : classify .eoserv ⟨t, f :: path⟩ = none := by
  obtain ⟨k, before, after⟩ := f
  cases k <;> first | rfl | exact absurd rfl hinvocation | exact absurd rfl hgoto

theorem classify_block (flavor : Flavor) (h : f.kind = .mainBlock ∨ f.kind = .stateBlock) :
    classify flavor ⟨t, f :: path⟩ = none := by
  obtain ⟨k, before, after⟩ := f
  rcases h with rfl | rfl <;> cases flavor <;> rfl

end Places

/-- The place of an expression decides what it invokes. -/
structure Anchor.Invokes (kind : SymbolKind) (isCondition : Bool) (e : Place) : Prop where
  condition : isChildAt Shape.conditional 1 e = isCondition
  effect : isCondition = false →
    isChildAt Shape.conditional 2 e = true ∨ isChildAt Shape.unconditional 1 e = true
  kind_eq : kind = if isCondition then .rule else .action

section Callee
variable {e : Place} {kind : SymbolKind} {isCondition : Bool}

/-- **The name that an expression invokes is a reference.** -/
theorem classify_callee {name : Word .identifier} {x : Tree} {f : Frame} {path : List Frame}
    (h : Anchor.Invokes kind isCondition
      ⟨.node .expression [.node .invocationExpression [name.tree, x]], f :: path⟩) :
    classify .eoserv ⟨name.tree, ⟨.invocationExpression, [], [x]⟩ :: ⟨.expression, [], []⟩ ::
      f :: path⟩ = some kind := by
  have hcallee : ∀ kinds n, Anchor.holds (.callee kinds n)
      ⟨name.tree, ⟨.invocationExpression, [], [x]⟩ :: ⟨.expression, [], []⟩ :: f :: path⟩ =
      Anchor.isChildAt kinds n
        ⟨.node .expression [.node .invocationExpression [name.tree, x]], f :: path⟩ := by
    intro kinds n
    have hname : Anchor.isChildAt [.invocationExpression] 0
        ⟨name.tree, ⟨.invocationExpression, [], [x]⟩ :: ⟨.expression, [], []⟩ :: f :: path⟩ =
        true := by
      rw [Anchor.isChildAt_eq _ _ (name.isHidden_tree) (by simp)]
      rfl
    rw [Anchor.holds, hname, Bool.true_and]
    rfl
  simp only [classify, Shape.ofFlavor, Shape.eoserv, List.find?_cons, Shape.holds, hcallee,
    Option.all_none, Bool.and_true]
  cases hcond : isCondition with
  | true =>
    rw [h.condition, hcond, h.kind_eq, hcond]
    rfl
  | false =>
    rw [h.condition, hcond, h.kind_eq, hcond]
    rcases h.effect hcond with heffect | heffect
    · rw [heffect]
      rfl
    · rw [heffect]
      cases Anchor.isChildAt Shape.conditional 2 _ <;> rfl

theorem Tree.text_token {t : Token} (h : t.isSignificant = true) : (Tree.token t).text = t.text := by
  rw [Tree.text, Tree.significantTokens, Tree.leaves_token, List.filter_cons_of_pos h]
  simp

theorem follows_goto {c : Checker} {keyword : Word (.keyword .goto)} (h : c.Knows keyword.1)
    {t : Tree} {f : Frame} {path : List Frame} (hf : f.before.head? = some keyword.tree) :
    Shape.follows "goto" ⟨t, f :: path⟩ = true := by
  have hprevious : (⟨t, f :: path⟩ : Place).previous? = some keyword.tree := by
    obtain ⟨k, before, after⟩ := f
    cases before with
    | nil => cases hf
    | cons s before =>
      cases hf
      have hvisible : (!keyword.tree.isHidden) = true := by rw [keyword.isHidden_tree]; rfl
      exact List.find?_cons_of_pos (p := fun s : Tree => !s.isHidden) hvisible
  rw [Shape.follows, hprevious, Option.any_some, Word.tree, Tree.text_token h.significant,
    Ascii.sameWord_comm]
  exact h.spelled .goto keyword.2

/-- **The name that a `goto` leads to is a reference.** -/
theorem classify_target {c : Checker} {keyword : Word (.keyword .goto)} (h : c.Knows keyword.1)
    (target : Word .identifier) (path : List Frame) :
    classify .eoserv ⟨target.tree, ⟨.gotoExpression, [keyword.tree], []⟩ :: path⟩ = some .state := by
  have hfollows : Shape.follows "goto"
      ⟨target.tree, ⟨.gotoExpression, [keyword.tree], []⟩ :: path⟩ = true := follows_goto h rfl
  have hlast : Place.isLast ⟨target.tree, ⟨.gotoExpression, [keyword.tree], []⟩ :: path⟩ = true := by
    rw [Place.isLast, target.isHidden_tree]
    rfl
  have hcallee : ∀ kinds n, Anchor.holds (.callee kinds n)
      ⟨target.tree, ⟨.gotoExpression, [keyword.tree], []⟩ :: path⟩ = false := fun _ _ => rfl
  have hgoto : Anchor.holds (.child .gotoExpression .last)
      ⟨target.tree, ⟨.gotoExpression, [keyword.tree], []⟩ :: path⟩ = true := by
    rw [Anchor.holds, Slot.holds, hlast]
    rfl
  simp [classify, Shape.ofFlavor, Shape.eoserv, Shape.holds, hcallee, hgoto, hfollows]

theorem classify_gotoKeyword (keyword : Word (.keyword .goto)) (target : Word .identifier)
    (path : List Frame) :
    classify .eoserv ⟨keyword.tree, ⟨.gotoExpression, [], [target.tree]⟩ :: path⟩ = none := by
  have hlast : Place.isLast ⟨keyword.tree, ⟨.gotoExpression, [], [target.tree]⟩ :: path⟩ =
      false := by
    rw [Place.isLast, keyword.isHidden_tree]
    show (!false && (target.tree.isHidden && true)) = false
    rw [target.isHidden_tree]
    rfl
  have hcallee : ∀ kinds n, Anchor.holds (.callee kinds n)
      ⟨keyword.tree, ⟨.gotoExpression, [], [target.tree]⟩ :: path⟩ = false := fun _ _ => rfl
  have hgoto : Anchor.holds (.child .gotoExpression .last)
      ⟨keyword.tree, ⟨.gotoExpression, [], [target.tree]⟩ :: path⟩ = false := by
    rw [Anchor.holds, Slot.holds, hlast, Bool.and_false]
  simp [classify, Shape.ofFlavor, Shape.eoserv, Shape.holds, hcallee, hgoto]

end Callee

/-! ### Where the operands of a statement stand -/

namespace Ast
variable (path : List Frame) (after : List Tree)

theorem Conditional.invokes_first (c : Conditional) (keyword : Word (.keyword c.keyword))
    (x : Expression Word) :
    Anchor.Invokes .rule true ⟨x.toTree, ⟨c.nodeKind, [keyword.tree], after⟩ :: path⟩ := by
  have hkeyword : keyword.tree.isHidden = false := keyword.isHidden_tree
  have hkinds : Shape.conditional.contains c.nodeKind = true := by cases c <;> rfl
  refine ⟨?_, by simp, rfl⟩
  rw [Anchor.isChildAt_eq _ _ rfl (by simp [hkeyword]), hkinds]
  rfl

theorem Conditional.invokes_second (c : Conditional) (keyword : Word (.keyword c.keyword))
    (x y : Expression Word) :
    Anchor.Invokes .action false
      ⟨y.toTree, ⟨c.nodeKind, [x.toTree, keyword.tree], after⟩ :: path⟩ := by
  have hkeyword : keyword.tree.isHidden = false := keyword.isHidden_tree
  have hkinds : Shape.conditional.contains c.nodeKind = true := by cases c <;> rfl
  have hboth : ∀ s ∈ [x.toTree, keyword.tree], s.isHidden = false :=
    List.forall_mem_cons.mpr ⟨rfl, by simp [hkeyword]⟩
  refine ⟨?_, fun _ => .inl ?_, rfl⟩
  · rw [Anchor.isChildAt_eq _ _ rfl hboth, hkinds]
    rfl
  · rw [Anchor.isChildAt_eq _ _ rfl hboth, hkinds]
    rfl

theorem Unconditional.invokes_only (u : Unconditional) (keyword : Word (.keyword u.keyword))
    (x : Expression Word) :
    Anchor.Invokes .action false ⟨x.toTree, ⟨u.nodeKind, [keyword.tree], after⟩ :: path⟩ := by
  have hkeyword : keyword.tree.isHidden = false := keyword.isHidden_tree
  refine ⟨?_, fun _ => .inr ?_, rfl⟩
  · rw [Anchor.isChildAt_eq _ _ rfl (by simp [hkeyword])]
    cases u <;> rfl
  · rw [Anchor.isChildAt_eq _ _ rfl (by simp [hkeyword])]
    cases u <;> rfl

end Ast

/-! ### Where the block around a place ends -/

namespace Checker
variable {c : Checker} {path : List Frame} {stop : Position}

theorem EndsAt.below {t : Tree} {f : Frame} (hf : f.kind ≠ .stateBlock)
    (h : c.EndsAt ⟨.node f.kind (f.before.reverse ++ t :: f.after), path⟩ stop) :
    c.EndsAt ⟨t, f :: path⟩ stop := by
  obtain ⟨block, start, hblock, hspan⟩ := h
  refine ⟨block, start, ?_, hspan⟩
  rw [Place.ancestor?, Place.ancestors, Place.nodesAround, List.find?_cons_of_neg]
  · exact hblock
  · simpa [Tree.isNode, Tree.kind] using hf

theorem EndsAt.of_stateBlock {t : Tree} {before after : List Tree} {span : Span}
    (h : c.parse.spanOf (.node .stateBlock (before.reverse ++ t :: after)) = .ok span) :
    c.EndsAt ⟨t, ⟨.stateBlock, before, after⟩ :: path⟩ span.stop :=
  ⟨_, span.start, rfl, h⟩

/-! ### Walks over nodes -/

variable {seen after last : Bool} {k : NodeKind} {before cs : List Tree} {fs gs : List Finding}

theorem walks_node (hplace : c.checkPlace seen ⟨.node k cs, path⟩ = ⟨gs, none⟩)
    (hk : k ≠ .mainBlock) (hcs : Walks c seen (Place.withinAll k path [] cs) fs after) :
    Walks c seen (Place.within path (.node k cs)) (gs ++ fs) after := by
  rw [Place.within]
  exact Walks.cons hplace (by simpa [Tree.isNode, Tree.kind] using hk) hcs

/-- A node at which nothing is found. -/
theorem walks_unchecked (hplace : c.checkPlace seen ⟨.node k cs, path⟩ = .nothing)
    (hk : k ≠ .mainBlock) (hcs : Walks c seen (Place.withinAll k path [] cs) fs after) :
    Walks c seen (Place.within path (.node k cs)) fs after :=
  walks_node hplace hk hcs

theorem walks_child {t : Tree} (ht : Walks c seen (Place.within (⟨k, before, cs⟩ :: path) t) gs after)
    (hcs : Walks c after (Place.withinAll k path (t :: before) cs) fs last) :
    Walks c seen (Place.withinAll k path before (t :: cs)) (gs ++ fs) last := by
  rw [Place.withinAll]
  exact ht.append hcs

theorem walks_only {t : Tree} (ht : Walks c seen (Place.within (⟨k, before, []⟩ :: path) t) gs after) :
    Walks c seen (Place.withinAll k path before [t]) gs after := by
  have h := walks_child ht walks_nil
  rwa [List.append_nil] at h

theorem walks_token {t : Token} (hplace : c.checkPlace seen ⟨.token t, path⟩ = ⟨gs, none⟩) :
    Walks c seen (Place.within path (.token t)) gs seen := by
  have h := Walks.cons hplace rfl walks_nil
  rwa [List.append_nil] at h

/-- A word that is no reference. -/
theorem walks_word {t : Token} (ht : c.Knows t)
    (hclass : classify c.parse.flavor ⟨.token t, path⟩ = none) :
    Walks c seen (Place.within path (.token t)) (c.keywordFindings t) seen :=
  walks_token (checkPlace_token ht seen hclass)

variable {flavor : Flavor}

theorem findings_wordSites (ls : List (Leaf Word)) :
    (wordSites ls : List (Site flavor)).flatMap (Site.findings c) =
      (ls.map Leaf.token).flatMap c.keywordFindings := by
  rw [wordSites, List.flatMap_map, List.flatMap_map]
  rfl

theorem walks_close {close : Option (Word .semicolon)}
    (hknown : ∀ u ∈ (Leaf.close close).map Leaf.token, c.Knows u)
    (hclass : ∀ w : Word .semicolon,
      classify c.parse.flavor ⟨w.tree, ⟨k, before, []⟩ :: path⟩ = none) :
    Walks c seen (Place.withinAll k path before (closeTrees close))
      (((Leaf.close close).map Leaf.token).flatMap c.keywordFindings) seen := by
  cases close with
  | none => exact walks_nil
  | some w =>
    have hw : c.Knows w.1 := hknown w.1 (by simp [Leaf.close])
    show Walks c seen (Place.withinAll k path before [w.tree]) (c.keywordFindings w.1 ++ []) seen
    rw [List.append_nil]
    exact walks_only (walks_word hw (hclass w))

/-! ### Arguments -/

theorem areQuiet_append (ts us : List Tree) :
    Tree.areQuiet (ts ++ us) = (Tree.areQuiet ts && Tree.areQuiet us) := by
  induction ts with
  | nil => rfl
  | cons t ts ih => rw [List.cons_append, Tree.areQuiet, Tree.areQuiet, ih, Bool.and_assoc]

theorem isQuiet_argumentKind (flavor : Flavor) : (Grammar.argumentKind flavor).isQuiet = true := by
  cases flavor <;> rfl

theorem isQuiet_argumentTree (flavor : Flavor) (t : Token) :
    (Grammar.argumentTree (Grammar.argumentKind flavor) t).isQuiet = true := by
  rw [Grammar.argumentTree, Tree.isQuiet, isQuiet_argumentKind]
  rfl

theorem isQuiet_argumentList (flavor : Flavor) (x : ArgumentList Word) :
    (x.toTree (Grammar.argumentKind flavor)).isQuiet = true := by
  have hcommas : ∀ more : List (Word .comma × Literal Word), Tree.areQuiet
      (more.flatMap (ArgumentList.commaTrees (Grammar.argumentKind flavor))) = true := by
    intro more
    induction more with
    | nil => rfl
    | cons y more ih =>
      rw [List.flatMap_cons, areQuiet_append, ih, Bool.and_true, ArgumentList.commaTrees,
        Tree.areQuiet, Tree.areQuiet, isQuiet_argumentTree]
      rfl
  have hinner : Tree.areQuiet
      (ArgumentList.innerTrees (Grammar.argumentKind flavor) x.arguments) = true := by
    rcases x.arguments with _ | ⟨first, more⟩
    · rfl
    · simp only [ArgumentList.innerTrees, Tree.areQuiet, Tree.isQuiet, hcommas,
        isQuiet_argumentTree]
      rfl
  rw [ArgumentList.toTree, Tree.isQuiet, Tree.areQuiet, areQuiet_append, hinner]
  rfl

theorem isHidden_argumentList (wrapper : NodeKind) (x : ArgumentList Word) :
    (x.toTree wrapper).isHidden = false := rfl

/-- A tree in which nothing is checked but words. -/
theorem walks_quietNode (hk : k.isQuiet = true) (hcs : Tree.areQuiet cs = true)
    (hknown : ∀ u ∈ Tree.leavesOf cs, c.Knows u) :
    Walks c seen (Place.within path (.node k cs)) ((Tree.leavesOf cs).flatMap c.keywordFindings)
      seen := by
  have hne : k ≠ .mainBlock := by
    rintro rfl
    cases hk
  exact walks_node (checkPlace_quiet hk seen cs path) hne
    (walks_quietAll cs seen k path [] hk hcs hknown)

theorem walks_arguments {x : ArgumentList Word}
    (hknown : ∀ u ∈ x.leaves.map Leaf.token, c.Knows u) :
    Walks c seen (Place.within path (x.toTree (Grammar.argumentKind flavor)))
      ((x.leaves.map Leaf.token).flatMap c.keywordFindings) seen := by
  have hquiet := isQuiet_argumentList flavor x
  have hleaves := ArgumentList.leaves_toTree (Grammar.argumentKind flavor) x
  rw [ArgumentList.toTree, Tree.isQuiet, Bool.and_eq_true] at hquiet
  rw [ArgumentList.toTree, Tree.leaves_node] at hleaves
  rw [ArgumentList.toTree, ← hleaves]
  exact walks_quietNode hquiet.1 hquiet.2 (by rw [hleaves]; exact hknown)

/-! ### Expressions -/

variable {kind : SymbolKind} {isCondition : Bool} {f : Frame}

theorem checkGoto_eq {keyword : Word (.keyword .goto)} {target : Word .identifier}
    (hplace : Anchor.Invokes kind isCondition ⟨(Expression.goto keyword target).toTree, f :: path⟩)
    (hkeyword : c.Knows keyword.1) (htarget : c.Knows target.1) :
    c.checkPlace seen ⟨(Expression.goto keyword target).inner, ⟨.expression, [], []⟩ :: f :: path⟩ =
      ⟨if isCondition then
        [.plain (Expression.goto keyword target).inner.extent .gotoNotAllowed] else [], none⟩ := by
  have hleaves : (Expression.goto keyword target).inner.leaves = [keyword.1, target.1] := by
    simp [Expression.inner]
  have hspan := spanOf_eq (c := c) (t := (Expression.goto keyword target).inner)
    (by rw [hleaves]; simp) (by rw [hleaves]; simp [hkeyword, htarget])
  show (if (Anchor.isChildAt Shape.conditional 1
      ⟨(Expression.goto keyword target).toTree, f :: path⟩) = true then _ else _) = _
  rw [hplace.condition, hspan]
  cases isCondition <;> rfl

/-- **What the walk over an expression finds.** -/
theorem walks_expression {x : Expression Word} (hflavor : c.parse.flavor = .eoserv)
    (hplace : Anchor.Invokes kind isCondition ⟨x.toTree, f :: path⟩)
    (hstop : c.EndsAt ⟨x.toTree, f :: path⟩ stop)
    (hknown : ∀ u ∈ (x.leaves kind).map Leaf.token, c.Knows u) :
    Walks c seen (Place.within (f :: path) x.toTree)
      ((x.sites stop kind isCondition : List (Site flavor)).flatMap (Site.findings c)) seen := by
  cases x with
  | invocation x =>
    rw [Expression.leaves, Invocation.leaves, List.map_cons, List.forall_mem_cons] at hknown
    have hstate : kind ≠ .state := by
      rw [hplace.kind_eq]
      cases isCondition <;> simp
    rw [Expression.sites, List.flatMap_cons, findings_wordSites]
    refine walks_unchecked rfl (by simp) (walks_only (walks_unchecked rfl (by simp) ?_))
    refine walks_child (walks_token (checkPlace_callee hknown.1 x.callee.2 ?_ hstate ?_ hknown.2 seen))
      (walks_only (walks_arguments hknown.2))
    · rw [hflavor]
      exact classify_callee hplace
    · rw [hflavor]
      rfl
  | goto keyword target =>
    have hkeyword : c.Knows keyword.1 := hknown _ (by simp [Expression.leaves])
    have htarget : c.Knows target.1 := hknown _ (by simp [Expression.leaves])
    have hwords : Walks c seen
        (Place.withinAll .gotoExpression (⟨.expression, [], []⟩ :: f :: path) []
          [keyword.tree, target.tree])
        (c.keywordFindings keyword.1 ++ c.referenceFindings .state target.1 none stop) seen := by
      refine walks_child (walks_word hkeyword ?_)
        (walks_only (walks_token (checkPlace_target htarget target.2 ?_ ?_ seen)))
      · rw [hflavor]
        exact classify_gotoKeyword keyword target _
      · rw [hflavor]
        exact classify_target hkeyword target _
      · exact EndsAt.below (by simp) (EndsAt.below (by simp) hstop)
    have hsites : ((Expression.goto keyword target).sites stop kind isCondition :
        List (Site flavor)).flatMap (Site.findings c) =
        (if isCondition then
          [.plain (Expression.goto keyword target).inner.extent .gotoNotAllowed] else []) ++
        (c.keywordFindings keyword.1 ++ c.referenceFindings .state target.1 none stop) := by
      cases isCondition <;> simp [Expression.sites, Site.findings]
    rw [hsites]
    exact walks_unchecked rfl (by simp)
      (walks_only (walks_node (checkGoto_eq hplace hkeyword htarget) (by simp) hwords))
  | literal x =>
    rw [Expression.sites, findings_wordSites]
    refine walks_unchecked rfl (by simp) (walks_only ?_)
    have hleaves : Tree.leavesOf [Tree.token x.token] = [x.leaf].map Leaf.token := by
      rw [Tree.leavesOf_cons, Tree.leaves_token]
      rfl
    rw [← hleaves]
    exact walks_quietNode rfl rfl (by rw [hleaves]; exact hknown)

/-! ### Statements -/

theorem classify_official_word {n : TokenKind} {w : Word n} (hn : n.isHidden = false)
    (hbefore : ∀ s ∈ before, s.isHidden = false)
    (hrule : k = .rule → before.length ≠ 1 ∧ before.length ≠ 4)
    (haction : k = .action → before.length ≠ 1) :
    classify .official ⟨w.tree, ⟨k, before, cs⟩ :: path⟩ = none := by
  rw [classify_official (by rw [w.isHidden_tree, hn]) hbefore]
  by_cases hk : k = .rule
  · simp [hk, hrule hk]
  · by_cases hk' : k = .action
    · simp [hk', haction hk']
    · simp [hk, hk']

section Rule
variable {keyword : Word (.keyword .rule)} {condition : Invocation Word} {goto : Word (.keyword .goto)}

variable (keyword condition goto) in
/-- The grammar sees what stands in an official rule before the state that it leads to. -/
theorem isHidden_beforeTarget :
    ∀ s ∈ [goto.tree, condition.arguments.toTree (Grammar.argumentKind .official),
      condition.callee.tree, keyword.tree], s.isHidden = false := by
  simp [Word.isHidden_tree, TokenKind.isHidden, TokenKind.isTrivia, isHidden_argumentList]

/-- **The state that an official rule leads to is a reference.** -/
theorem classify_officialTarget (h : c.Knows goto.1) (target : Word .identifier)
    (after : List Tree) (path : List Frame) :
    classify .official ⟨target.tree, ⟨.rule, [goto.tree,
      condition.arguments.toTree (Grammar.argumentKind .official), condition.callee.tree,
      keyword.tree], after⟩ :: path⟩ = some .state := by
  rw [classify_official target.isHidden_tree (isHidden_beforeTarget keyword condition goto),
    follows_goto h rfl]
  rfl

end Rule

theorem walks_rule {keyword : Word (.keyword .rule)} {condition : Invocation Word}
    {goto : Word (.keyword .goto)} {target : Word .identifier} {close : Option (Word .semicolon)}
    (hflavor : c.parse.flavor = .official)
    (hstop : c.EndsAt ⟨(Statement.rule keyword condition goto target close).inner, path⟩ stop)
    (hknown : ∀ u ∈ (Statement.rule keyword condition goto target close).leaves.map Leaf.token,
      c.Knows u) :
    Walks c seen (Place.within path (Statement.rule keyword condition goto target close).inner)
      (((Statement.rule keyword condition goto target close).sites stop).flatMap
        (Site.findings c)) seen := by
  simp only [Statement.leaves, Invocation.leaves, List.map_cons, List.map_append, List.map_nil,
    List.forall_mem_cons, List.forall_mem_append] at hknown
  obtain ⟨hkeyword, ⟨hcallee, harguments⟩, ⟨hgoto, htarget, -⟩, hclose⟩ := hknown
  simp only [Statement.sites, List.flatMap_cons, List.flatMap_append, findings_wordSites]
  have hhidden := isHidden_beforeTarget keyword condition goto
  refine walks_unchecked rfl (by simp) ?_
  refine walks_child (walks_word hkeyword ?_) ?_
  · rw [hflavor]
    exact classify_official_word rfl (by simp) (by simp) (by simp)
  refine walks_child (walks_token (checkPlace_callee hcallee condition.callee.2 ?_ (by simp) ?_
    harguments seen)) (walks_child (walks_arguments harguments) ?_)
  · rw [hflavor]
    exact classify_official condition.callee.isHidden_tree fun s hs =>
      hhidden s (.tail _ (.tail _ (.tail _ hs)))
  · rw [hflavor]
    rfl
  refine walks_child (walks_word hgoto ?_) ?_
  · rw [hflavor]
    exact classify_official_word rfl (fun s hs => hhidden s (.tail _ hs)) (by simp) (by simp)
  refine walks_child (walks_token (checkPlace_target htarget target.2 ?_ ?_ seen)) ?_
  · rw [hflavor]
    exact classify_officialTarget hgoto target _ path
  · exact EndsAt.below (by simp) hstop
  refine walks_close hclose fun w => ?_
  rw [hflavor]
  refine classify_official_word rfl ?_ (by simp) (by simp)
  exact List.forall_mem_cons.mpr ⟨target.isHidden_tree, hhidden⟩

theorem walks_action {keyword : Word (.keyword .action)} {effect : Invocation Word}
    {close : Option (Word .semicolon)} (hflavor : c.parse.flavor = .official)
    (hknown : ∀ u ∈ (Statement.action keyword effect close).leaves.map Leaf.token, c.Knows u) :
    Walks c seen (Place.within path (Statement.action keyword effect close).inner)
      (((Statement.action keyword effect close).sites stop).flatMap (Site.findings c)) seen := by
  simp only [Statement.leaves, Invocation.leaves, List.map_cons, List.map_append,
    List.forall_mem_cons, List.forall_mem_append] at hknown
  obtain ⟨hkeyword, ⟨hcallee, harguments⟩, hclose⟩ := hknown
  simp only [Statement.sites, List.flatMap_cons, List.flatMap_append, findings_wordSites]
  have hhidden : ∀ s ∈ [effect.arguments.toTree (Grammar.argumentKind .official),
      effect.callee.tree, keyword.tree], s.isHidden = false := by
    simp [Word.isHidden_tree, TokenKind.isHidden, TokenKind.isTrivia, isHidden_argumentList]
  refine walks_unchecked rfl (by simp) ?_
  refine walks_child (walks_word hkeyword ?_) ?_
  · rw [hflavor]
    exact classify_official_word rfl (by simp) (by simp) (by simp)
  refine walks_child (walks_token (checkPlace_callee hcallee effect.callee.2 ?_ (by simp) ?_
    harguments seen)) (walks_child (walks_arguments harguments) ?_)
  · rw [hflavor]
    exact classify_official effect.callee.isHidden_tree fun s hs => hhidden s (.tail _ (.tail _ hs))
  · rw [hflavor]
    rfl
  refine walks_close hclose fun w => ?_
  rw [hflavor]
  exact classify_official_word rfl hhidden (by simp) (by simp)

theorem walks_description {keyword : Word (.keyword .description)} {text : Word .string}
    {close : Option (Word .semicolon)}
    (hknown : ∀ u ∈ (Statement.description keyword text close :
      Statement Word flavor).leaves.map Leaf.token, c.Knows u) :
    Walks c seen
      (Place.within path (Statement.description keyword text close : Statement Word flavor).inner)
      (((Statement.description keyword text close : Statement Word flavor).sites stop).flatMap
        (Site.findings c)) seen := by
  have hquiet : Tree.areQuiet (keyword.tree :: text.tree :: closeTrees close) = true := by
    cases close <;> rfl
  have hleaves : Tree.leavesOf (keyword.tree :: text.tree :: closeTrees close) =
      (Statement.description keyword text close : Statement Word flavor).leaves.map Leaf.token := by
    simp [Statement.leaves, leavesOf_closeTrees]
  have hsites : ((Statement.description keyword text close : Statement Word flavor).sites
      stop).flatMap (Site.findings c) =
      (Tree.leavesOf (keyword.tree :: text.tree :: closeTrees close)).flatMap c.keywordFindings := by
    rw [Statement.sites, findings_wordSites, hleaves]
    rfl
  rw [hsites]
  exact walks_quietNode rfl hquiet (by rw [hleaves]; exact hknown)

theorem classify_eoserv_word {n : TokenKind} {w : Word n} (hk : k.isQuiet = true ∨ k = .rule ∨
    k = .action) : classify .eoserv ⟨w.tree, ⟨k, before, cs⟩ :: path⟩ = none := by
  refine classify_eoserv ?_ ?_
  · rcases hk with hk | rfl | rfl
    · rintro (rfl : k = _)
      cases hk
    · simp
    · simp
  · rcases hk with hk | rfl | rfl
    · rintro (rfl : k = _)
      cases hk
    · simp
    · simp

theorem walks_conditional {condition : Conditional} {keyword : Word (.keyword condition.keyword)}
    {first second : Expression Word} {close : Option (Word .semicolon)}
    (hflavor : c.parse.flavor = .eoserv)
    (hstop : c.EndsAt ⟨(Statement.conditional condition keyword first second close).inner, path⟩ stop)
    (hknown : ∀ u ∈ (Statement.conditional condition keyword first second close).leaves.map
      Leaf.token, c.Knows u) :
    Walks c seen
      (Place.within path (Statement.conditional condition keyword first second close).inner)
      (((Statement.conditional condition keyword first second close).sites stop).flatMap
        (Site.findings c)) seen := by
  simp only [Statement.leaves, List.map_cons, List.map_append, List.forall_mem_cons,
    List.forall_mem_append] at hknown
  obtain ⟨hkeyword, hfirst, hsecond, hclose⟩ := hknown
  simp only [Statement.sites, List.flatMap_cons, List.flatMap_append, findings_wordSites]
  have hword : ∀ {n : TokenKind} (w : Word n) (before after : List Tree),
      classify c.parse.flavor ⟨w.tree, ⟨condition.nodeKind, before, after⟩ :: path⟩ = none := by
    intro n w before after
    rw [hflavor]
    exact classify_eoserv_word (by cases condition <;> simp [Conditional.nodeKind, NodeKind.isQuiet])
  have hstatement : condition.nodeKind ≠ .stateBlock := by cases condition <;> simp [Conditional.nodeKind]
  refine walks_unchecked (by cases condition <;> rfl) (by cases condition <;> simp [Conditional.nodeKind]) ?_
  refine walks_child (walks_word hkeyword (hword keyword _ _)) ?_
  refine walks_child (walks_expression hflavor ?_ ?_ hfirst) ?_
  · exact condition.invokes_first path _ keyword first
  · exact EndsAt.below hstatement hstop
  refine walks_child (walks_expression hflavor ?_ ?_ hsecond) (walks_close hclose fun w => hword w _ _)
  · exact condition.invokes_second path _ keyword first second
  · exact EndsAt.below hstatement hstop

theorem walks_unconditional {u : Unconditional} {keyword : Word (.keyword u.keyword)}
    {effect : Expression Word} {close : Option (Word .semicolon)}
    (hflavor : c.parse.flavor = .eoserv)
    (hstop : c.EndsAt ⟨(Statement.unconditional u keyword effect close).inner, path⟩ stop)
    (hknown : ∀ t ∈ (Statement.unconditional u keyword effect close).leaves.map Leaf.token,
      c.Knows t) :
    Walks c seen (Place.within path (Statement.unconditional u keyword effect close).inner)
      (((Statement.unconditional u keyword effect close).sites stop).flatMap (Site.findings c))
      seen := by
  simp only [Statement.leaves, List.map_cons, List.map_append, List.forall_mem_cons,
    List.forall_mem_append] at hknown
  obtain ⟨hkeyword, heffect, hclose⟩ := hknown
  simp only [Statement.sites, List.flatMap_cons, List.flatMap_append, findings_wordSites]
  have hword : ∀ {n : TokenKind} (w : Word n) (before after : List Tree),
      classify c.parse.flavor ⟨w.tree, ⟨u.nodeKind, before, after⟩ :: path⟩ = none := by
    intro n w before after
    rw [hflavor]
    exact classify_eoserv_word (by cases u <;> simp [Unconditional.nodeKind, NodeKind.isQuiet])
  refine walks_unchecked (by cases u <;> rfl) (by cases u <;> simp [Unconditional.nodeKind]) ?_
  refine walks_child (walks_word hkeyword (hword keyword _ _)) ?_
  refine walks_child (walks_expression hflavor ?_ ?_ heffect)
    (walks_close hclose fun w => hword w _ _)
  · exact u.invokes_only path _ keyword effect
  · exact EndsAt.below (by cases u <;> simp [Unconditional.nodeKind]) hstop

/-- **What the walk over a statement finds is what there is at its sites.** -/
theorem walks_statement {x : Statement Word flavor} (hflavor : c.parse.flavor = flavor)
    (hstop : c.EndsAt ⟨x.toTree, path⟩ stop)
    (hknown : ∀ u ∈ x.leaves.map Leaf.token, c.Knows u) :
    Walks c seen (Place.within path x.toTree) ((x.sites stop).flatMap (Site.findings c)) seen := by
  have hinner : c.EndsAt ⟨x.inner, ⟨.statement, [], []⟩ :: path⟩ stop := EndsAt.below (by simp) hstop
  refine walks_unchecked rfl (by simp) (walks_only ?_)
  cases x with
  | description keyword text close => exact walks_description hknown
  | rule keyword condition goto target close => exact walks_rule hflavor hinner hknown
  | action keyword effect close => exact walks_action hflavor hknown
  | conditional condition keyword first second close =>
    exact walks_conditional hflavor hinner hknown
  | unconditional u keyword effect close => exact walks_unconditional hflavor hinner hknown

end Checker

end QuestScript
