import Mathlib.Data.Option.Basic
import QuestScript.Proofs.Check.Site

/-! # What is found at an invocation

The arguments of an invocation are the literals of its argument list (`arguments_toTree`), so the
check of an invocation compares their number and their types with the parameters of the built-in
(`invocation_check`). Nothing is found if they fit (`invocationFindings_eq_nil_iff`). -/

namespace QuestScript

open Ast

theorem Report.andThen_found (fs gs : List Finding) :
    (⟨fs, none⟩ : Report).andThen ⟨gs, none⟩ = ⟨fs ++ gs, none⟩ := rfl

theorem Report.all_found {β : Type} {report : β → Report} {findings : β → List Finding}
    {xs : List β} (h : ∀ x ∈ xs, report x = ⟨findings x, none⟩) :
    Report.all (xs.map report) = ⟨xs.flatMap findings, none⟩ := by
  induction xs with
  | nil => rfl
  | cons x xs ih =>
    rw [List.map_cons, Report.all, h x (by simp), ih fun y hy => h y (by simp [hy]),
      Report.andThen_found, List.flatMap_cons]

theorem Tree.children_node {k : NodeKind} {cs : List Tree} (h : ∀ c ∈ cs, c.isHidden = false) :
    (Tree.node k cs).children = cs :=
  List.filter_eq_self.mpr fun c hc => by rw [h c hc]; rfl

theorem Ast.Word.isHidden_tree {k : TokenKind} (w : Word k) : w.tree.isHidden = k.isHidden := by
  rw [Word.tree, Tree.isHidden, Token.isHidden, w.2]

namespace Ast.ArgumentList

/-! ### Arguments -/

theorem isHidden_innerTrees (wrapper : NodeKind)
    (x : Option (Literal Word × List (Word .comma × Literal Word))) :
    ∀ c ∈ innerTrees wrapper x, c.isHidden = false := by
  rcases x with _ | ⟨first, more⟩ <;> simp [innerTrees, Tree.isHidden]

theorem children_toTree (wrapper : NodeKind) (x : ArgumentList Word) :
    (x.toTree wrapper).children =
      x.opening.tree :: (innerTrees wrapper x.arguments ++ [x.closing.tree]) := by
  refine Tree.children_node fun c hc => ?_
  rcases List.mem_cons.mp hc with rfl | hc
  · exact x.opening.isHidden_tree
  rcases List.mem_append.mp hc with hc | hc
  · exact isHidden_innerTrees wrapper x.arguments c hc
  · rw [List.mem_singleton.mp hc]
    exact x.closing.isHidden_tree

theorem children_arguments (wrapper : NodeKind) (first : Literal Word)
    (more : List (Word .comma × Literal Word)) :
    (Tree.node .arguments (Grammar.argumentTree wrapper first.token ::
      more.flatMap (commaTrees wrapper))).children =
        Grammar.argumentTree wrapper first.token :: more.flatMap (commaTrees wrapper) := by
  refine Tree.children_node fun c hc => ?_
  rcases List.mem_cons.mp hc with rfl | hc
  · rfl
  · obtain ⟨x, -, hc⟩ := List.mem_flatMap.mp hc
    rcases List.mem_cons.mp hc with rfl | hc
    · exact x.1.isHidden_tree
    · rw [List.mem_singleton.mp hc]
      rfl

theorem leaf_mem_more {first l : Literal Word} {more : List (Word .comma × Literal Word)}
    (h : l ∈ first :: more.map Prod.snd) : l.leaf ∈ innerLeaves (some (first, more)) := by
  rcases List.mem_cons.mp h with rfl | h
  · exact List.mem_cons_self
  · obtain ⟨y, hy, rfl⟩ := List.mem_map.mp h
    exact List.mem_cons_of_mem _ (List.mem_flatMap.mpr ⟨y, hy, by simp [commaLeaves]⟩)

theorem leaf_mem_innerLeaves {x : ArgumentList Word} {l : Literal Word} (h : l ∈ x.literals) :
    l.leaf ∈ innerLeaves x.arguments := by
  obtain ⟨opening, _ | ⟨first, more⟩, closing⟩ := x
  · cases h
  · exact leaf_mem_more h

variable (flavor : Flavor)

theorem child_argumentTree (l : Literal Word) :
    (Grammar.argumentTree (Grammar.argumentKind flavor) l.token).child? 0 =
      some (Grammar.literalTree l.token) := by
  rw [Tree.child?, Grammar.argumentTree, Tree.children_node]
  · rfl
  · intro c hc
    rw [List.mem_singleton.mp hc]
    rfl

theorem child_literalTree (l : Literal Word) :
    (Grammar.literalTree l.token).child? 0 = some (.token l.token) := by
  have hhidden : (Tree.token l.token).isHidden = false := by
    cases l with
    | integer w => exact w.isHidden_tree
    | string w => exact w.isHidden_tree
  rw [Tree.child?, Grammar.literalTree, Tree.children_node]
  · rfl
  · intro c hc
    rw [List.mem_singleton.mp hc]
    exact hhidden

theorem type_token (l : Literal Word) : ValueType.ofLiteral? l.token.kind = some l.type := by
  cases l with
  | integer w =>
    show ValueType.ofLiteral? w.1.kind = _
    rw [w.2]
    rfl
  | string w =>
    show ValueType.ofLiteral? w.1.kind = _
    rw [w.2]
    rfl

theorem argument_argumentTree (l : Literal Word) :
    QuestScript.Invocation.argument? flavor
        (Grammar.argumentTree (Grammar.argumentKind flavor) l.token) =
      some (Grammar.argumentTree (Grammar.argumentKind flavor) l.token, l.type) := by
  have hnode : (Grammar.argumentTree (Grammar.argumentKind flavor) l.token).isNode
      (Grammar.argumentKind flavor) = true := by simp [Grammar.argumentTree, Tree.isNode, Tree.kind]
  have hliteral : (Grammar.literalTree l.token).isNode .literal = true := rfl
  simp [QuestScript.Invocation.argument?, hnode, hliteral, child_argumentTree, child_literalTree,
    type_token, Tree.token?]

theorem argument_comma (w : Word .comma) :
    QuestScript.Invocation.argument? flavor w.tree = none := by
  have hnode : w.tree.isNode (Grammar.argumentKind flavor) = false := by
    simp [Word.tree, Tree.isNode, Tree.kind]
  rw [QuestScript.Invocation.argument?, hnode]
  rfl

/-- **The arguments found in the tree of an argument list are its literals.** -/
theorem arguments_toTree (x : ArgumentList Word) :
    QuestScript.Invocation.arguments flavor (x.toTree (Grammar.argumentKind flavor)) =
      x.literals.map fun l =>
        (Grammar.argumentTree (Grammar.argumentKind flavor) l.token, l.type) := by
  unfold QuestScript.Invocation.arguments Tree.child?
  rw [children_toTree]
  obtain ⟨opening, _ | ⟨first, more⟩, closing⟩ := x
  · rfl
  · have hmore : (more.flatMap (commaTrees (Grammar.argumentKind flavor))).filterMap
        (QuestScript.Invocation.argument? flavor) = more.map fun x =>
          (Grammar.argumentTree (Grammar.argumentKind flavor) x.2.token, x.2.type) := by
      induction more with
      | nil => rfl
      | cons x more ih =>
        rw [List.flatMap_cons, List.filterMap_append, ih]
        simp [commaTrees, argument_argumentTree, argument_comma]
    simp only [innerTrees, List.singleton_append, List.getElem?_cons_succ, List.getElem?_cons_zero]
    rw [if_pos (show Tree.isNode .arguments _ = true from rfl), children_arguments,
      List.filterMap_cons_some (argument_argumentTree flavor first), hmore]
    simp [literals]

end Ast.ArgumentList

/-! ### The check -/

namespace Checker
variable {c : Checker}

/-- What is found because of the number of arguments or of their types. -/
def argumentFindings (b : Builtin) (name : Token) (x : ArgumentList Word) : List Finding :=
  let problem := Problem.argumentCount b.requiredCount b.parameters.length x.literals.length
  if x.literals.length < b.requiredCount then
    [.plain ⟨name.span.start, x.closing.1.span.stop⟩ problem]
  else match x.literals.drop b.parameters.length with
    | first :: more =>
      [.plain ⟨first.token.span.start, ((first :: more).getLast (by simp)).token.span.stop⟩ problem]
    | [] => (x.literals.zip b.parameters).flatMap fun (l, parameter) =>
      if l.type = parameter.type then []
      else [.plain l.token.span (.argumentType l.type parameter.type)]

/-- What is found at the invocation of a built-in. -/
def invocationFindings (b : Builtin) (name : Token) (x : ArgumentList Word) : List Finding :=
  (if b.name = "SetState" then [.plain name.span .gotoPreferred] else []) ++
    argumentFindings b name x

theorem invocationFindings_eq_nil_iff {b : Builtin} {name : Token} {x : ArgumentList Word} :
    invocationFindings b name x = [] ↔ b.name ≠ "SetState" ∧
      b.requiredCount ≤ x.literals.length ∧ x.literals.length ≤ b.parameters.length ∧
      ∀ p ∈ x.literals.zip b.parameters, p.1.type = p.2.type := by
  rw [invocationFindings, List.append_eq_nil_iff]
  refine and_congr ?_ ?_
  · by_cases hb : b.name = "SetState"
    · simp [hb]
    · simp [hb]
  · unfold argumentFindings
    by_cases hfew : x.literals.length < b.requiredCount
    · simp only [if_pos hfew]
      constructor
      · intro h
        cases h
      · rintro ⟨hle, -⟩
        omega
    · simp only [if_neg hfew]
      cases hdrop : x.literals.drop b.parameters.length with
      | cons first more =>
        have hlength := congrArg List.length hdrop
        rw [List.length_drop, List.length_cons] at hlength
        constructor
        · intro h
          cases h
        · rintro ⟨-, hle, -⟩
          omega
      | nil =>
        have hlength := List.drop_eq_nil_iff.mp hdrop
        rw [List.flatMap_eq_nil_iff]
        constructor
        · intro h
          refine ⟨by omega, hlength, fun p hp => ?_⟩
          by_cases htype : p.1.type = p.2.type
          · exact htype
          · have := h p hp
            rw [if_neg htype] at this
            cases this
        · rintro ⟨-, -, h⟩ p hp
          exact if_pos (h p hp)

section Check
variable {b : Builtin} {name : Token} {x : ArgumentList Word}

theorem extent_argumentTree (wrapper : NodeKind) (t : Token) :
    (Grammar.argumentTree wrapper t).extent = t.span := by
  rw [Tree.extent, ArgumentList.leaves_argumentTree]
  rfl

theorem extent_stop_argumentList (wrapper : NodeKind) (x : ArgumentList Word) :
    (x.toTree wrapper).extent.stop = x.closing.1.span.stop := by
  have hlast : (x.toTree wrapper).leaves.getLast? = some x.closing.1 := by
    rw [ArgumentList.leaves_toTree, ArgumentList.leaves, List.map_cons, List.map_append,
      ← List.cons_append]
    exact List.getLast?_concat
  rw [Tree.extent, hlast]
  rfl

theorem spanOf_argumentTree (wrapper : NodeKind) {t : Token} (h : c.Knows t) :
    c.parse.spanOf (Grammar.argumentTree wrapper t) = .ok t.span := by
  have hleaves := ArgumentList.leaves_argumentTree wrapper t
  rw [spanOf_eq (by rw [hleaves]; simp) (by rw [hleaves]; simpa using h), extent_argumentTree]

theorem literal_mem_leaves {l : Literal Word} (h : l ∈ x.literals) :
    l.token ∈ x.leaves.map Leaf.token :=
  List.mem_map_of_mem
    (List.mem_cons_of_mem _ (List.mem_append_left _ (ArgumentList.leaf_mem_innerLeaves h)))

theorem checkArguments_eq {p : Place} (hfocus : p.focus = .token name) (hname : c.Knows name)
    (hx : ∀ u ∈ x.leaves.map Leaf.token, c.Knows u) :
    QuestScript.Invocation.checkArguments c.parse b p
        (x.toTree (Grammar.argumentKind c.parse.flavor)) = ⟨argumentFindings b name x, none⟩ := by
  unfold QuestScript.Invocation.checkArguments argumentFindings
  simp only [ArgumentList.arguments_toTree, List.length_map, hfocus, ← List.map_drop]
  by_cases hfew : x.literals.length < b.requiredCount
  · have hleaves := ArgumentList.leaves_toTree (Grammar.argumentKind c.parse.flavor) x
    have hlist := spanOf_eq (c := c) (t := x.toTree (Grammar.argumentKind c.parse.flavor))
      (by rw [hleaves]; simp [ArgumentList.leaves]) (by rw [hleaves]; exact hx)
    rw [if_pos hfew, if_pos hfew, hname.spanOf, hlist, ← extent_stop_argumentList]
    rfl
  · rw [if_neg hfew, if_neg hfew]
    have hspan : ∀ l ∈ x.literals, c.parse.spanOf
        (Grammar.argumentTree (Grammar.argumentKind c.parse.flavor) l.token) = .ok l.token.span :=
      fun l hl => spanOf_argumentTree _ (hx _ (literal_mem_leaves hl))
    cases hdrop : x.literals.drop b.parameters.length with
    | cons first more =>
      have hmem : ∀ l ∈ first :: more, l ∈ x.literals := fun l hl =>
        List.mem_of_mem_drop (hdrop ▸ hl)
      have hlast := List.getLast_map (f := fun l : Literal Word =>
        (Grammar.argumentTree (Grammar.argumentKind c.parse.flavor) l.token, l.type))
        (l := first :: more) (by simp)
      simp only [List.map_cons] at hlast ⊢
      rw [hspan first (hmem first (by simp)), hlast, hspan _ (hmem _ (List.getLast_mem _))]
      rfl
    | nil =>
      simp only [List.map_nil, List.zip_map_left, List.map_map]
      refine Report.all_found fun p hp => ?_
      obtain ⟨l, parameter⟩ := p
      simp only [Function.comp_apply, Prod.map_apply, QuestScript.Invocation.checkType]
      by_cases htype : l.type = parameter.type
      · rw [if_pos htype]
        exact if_pos htype
      · have hl : l ∈ x.literals := (List.of_mem_zip hp).1
        rw [if_neg htype, hspan l hl]
        exact if_neg htype

theorem argumentList_eq {p : Place} {wrapper : NodeKind}
    (hnext : p.next? = some (x.toTree wrapper)) :
    QuestScript.Invocation.argumentList? p = some (x.toTree wrapper) := by
  rw [QuestScript.Invocation.argumentList?, hnext]
  refine Option.filter_some_pos ?_
  rw [Bool.and_eq_true, decide_eq_true_eq, ArgumentList.children_toTree]
  refine ⟨rfl, ?_⟩
  rw [List.length_cons, List.length_append, List.length_singleton]
  omega

/-- **The check of an invocation finds what is wrong with its arguments.** -/
theorem invocation_check {p : Place} (hfocus : p.focus = .token name)
    (hnext : p.next? = some (x.toTree (Grammar.argumentKind c.parse.flavor)))
    (hname : c.Knows name) (hx : ∀ u ∈ x.leaves.map Leaf.token, c.Knows u) :
    QuestScript.Invocation.check c.parse b p = ⟨invocationFindings b name x, none⟩ := by
  have hpreference : (if b.name = "SetState" then
      Report.of do return [.plain (← c.parse.spanOf p.focus) .gotoPreferred] else Report.nothing) =
      ⟨if b.name = "SetState" then [.plain name.span .gotoPreferred] else [], none⟩ := by
    rw [hfocus, hname.spanOf]
    split <;> rfl
  unfold QuestScript.Invocation.check
  simp only [argumentList_eq hnext, checkArguments_eq hfocus hname hx]
  rw [hpreference, Report.andThen_found]
  rfl

end Check

end Checker

end QuestScript
