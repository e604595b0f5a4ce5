import QuestScript.Editor.Signature
import QuestScript.Proofs.Editor.Highlight
import QuestScript.Proofs.Caret.Token
import QuestScript.Proofs.Check.Arguments
import QuestScript.Proofs.Grammar.Nesting

/-! # Signature help tracks the argument

In a document without syntax errors the argument list of an invocation stands right behind the name
(`Quest.exists_listPlace`), and all that stands in it has it as the nearest list
(`Analysis.argumentListAt?_of_mem`). The commas that start before a caret are those before the argument
under the caret, on whatever lines they are (`ArgumentList.countP_commas`). So what is shown in a list is
the built-in invoked and the argument at the caret, up to the closing parenthesis
(`Analysis.signatureHelp_tracks`). -/

namespace QuestScript

open Ast

/-! ### Where argument lists stand -/

/-- The place of the argument list of an invocation, of which the frame has what is around it. -/
def Ast.Invocation.listPlace (flavor : Flavor) (x : Invocation Word) (f : Frame) (path : List Frame) :
    Place :=
  ⟨x.arguments.toTree (Grammar.argumentKind flavor), ⟨f.kind, x.callee.tree :: f.before, f.after⟩ :: path⟩

namespace Ast
variable {flavor : Flavor} {kind : SymbolKind} {x : Invocation Word}

/-- **The argument list of an invocation stands right behind the name.** -/
theorem Statement.exists_listPlace {s : Statement Word flavor} (h : (kind, x) ∈ s.invocations)
    (path : List Frame) : ∃ f inner, Place.whole (x.listPlace flavor f inner).focus
      (x.listPlace flavor f inner).path = Place.whole s.toTree path := by
  cases s with
  | description keyword text close => cases h
  | rule keyword condition goto target close =>
    obtain ⟨rfl, rfl⟩ := Prod.mk.inj (List.mem_singleton.mp h)
    exact ⟨⟨.rule, [keyword.tree], goto.tree :: target.tree :: closeTrees close⟩,
      ⟨.statement, [], []⟩ :: path, rfl⟩
  | action keyword effect close =>
    obtain ⟨rfl, rfl⟩ := Prod.mk.inj (List.mem_singleton.mp h)
    exact ⟨⟨.action, [keyword.tree], closeTrees close⟩, ⟨.statement, [], []⟩ :: path, rfl⟩
  | conditional c keyword condition effect close =>
    rcases List.mem_append.mp h with h | h
    · obtain ⟨-, rfl⟩ := Expression.of_mem_invocations h
      exact ⟨⟨.invocationExpression, [], []⟩, ⟨.expression, [], []⟩ ::
        ⟨c.nodeKind, [keyword.tree], effect.toTree :: closeTrees close⟩ ::
        ⟨.statement, [], []⟩ :: path, rfl⟩
    · obtain ⟨-, rfl⟩ := Expression.of_mem_invocations h
      exact ⟨⟨.invocationExpression, [], []⟩, ⟨.expression, [], []⟩ ::
        ⟨c.nodeKind, [condition.toTree, keyword.tree], closeTrees close⟩ ::
        ⟨.statement, [], []⟩ :: path, rfl⟩
  | unconditional c keyword effect close =>
    obtain ⟨-, rfl⟩ := Expression.of_mem_invocations h
    exact ⟨⟨.invocationExpression, [], []⟩, ⟨.expression, [], []⟩ ::
      ⟨c.nodeKind, [keyword.tree], closeTrees close⟩ :: ⟨.statement, [], []⟩ :: path, rfl⟩

namespace Quest
variable {q : Quest Word flavor}

theorem exists_statement_place {s : Statement Word flavor} (h : s ∈ q.statements) :
    ∃ p ∈ (Place.root q.toTree).descendants, p.focus = s.toTree := by
  obtain ⟨b, hb, hs⟩ := List.mem_flatMap.mp h
  obtain ⟨block, hblock, hstate⟩ := List.mem_filterMap.mp hb
  cases block with
  | main y => cases hstate
  | state y =>
    obtain rfl : y = b := Option.some.inj hstate
    have hblock : (Block.state y).toTree ∈ q.toTree.subtrees :=
      Tree.mem_subtrees_of_allChildren q.toTree.self_mem_subtrees (List.mem_map_of_mem hblock)
    have hstate : y.toTree ∈ q.toTree.subtrees :=
      Tree.mem_subtrees_of_allChildren hblock List.mem_cons_self
    have hstatement : s.toTree ∈ q.toTree.subtrees :=
      Tree.mem_subtrees_of_allChildren hstate (List.mem_cons_of_mem _ (List.mem_cons_of_mem _
        (List.mem_cons_of_mem _ (List.mem_append_left _ (List.mem_map_of_mem hs)))))
    exact Place.exists_of_mem_subtrees hstatement

/-- **Every invocation of a quest has an argument list in its tree**, right behind the name. -/
theorem exists_listPlace (h : (kind, x) ∈ q.statements.flatMap Statement.invocations) :
    ∃ f path, x.listPlace flavor f path ∈ (Place.root q.toTree).descendants := by
  obtain ⟨s, hs, hx⟩ := List.mem_flatMap.mp h
  obtain ⟨p, hp, hfocus⟩ := exists_statement_place hs
  obtain ⟨f, path, hwhole⟩ := Statement.exists_listPlace hx p.path
  refine ⟨f, path, Place.mem_descendants_iff.mpr ?_⟩
  rw [hwhole, ← hfocus, Place.mem_descendants_iff.mp hp]

end Quest

end Ast

/-! ### Commas before a caret -/

namespace Ast.ArgumentList

/-- The commas between the arguments. -/
def commas (x : ArgumentList Word) : List Token :=
  match x.arguments with
  | none => []
  | some (_, more) => more.map (·.1.1)

theorem mem_leaves_of_mem_commas {x : ArgumentList Word} {t : Token} (h : t ∈ x.commas) :
    t ∈ x.leaves.map Leaf.token := by
  obtain ⟨opening, _ | ⟨first, more⟩, closing⟩ := x
  · cases h
  · obtain ⟨y, hy, rfl⟩ := List.mem_map.mp h
    refine List.mem_map.mpr ⟨.plain y.1, ?_, rfl⟩
    refine List.mem_cons_of_mem _ (List.mem_append_left _ (List.mem_cons_of_mem _ ?_))
    exact List.mem_flatMap.mpr ⟨y, hy, List.mem_cons_self⟩

section Order
variable {x : ArgumentList Word} {l : Literal Word} (h : l ∈ x.literals)
include h

theorem opening_before : [x.opening.1, l.token].Sublist (x.leaves.map Leaf.token) := by
  have hinner := List.singleton_sublist.mpr (leaf_mem_innerLeaves h)
  have hleaves : [.plain x.opening, l.leaf].Sublist x.leaves :=
    (hinner.trans (List.sublist_append_left _ _)).cons_cons _
  exact hleaves.map Leaf.token

theorem closing_behind : [l.token, x.closing.1].Sublist (x.leaves.map Leaf.token) := by
  have hinner := List.singleton_sublist.mpr (leaf_mem_innerLeaves h)
  have hclosing : [(.plain x.closing : Leaf Word)].Sublist [.plain x.closing] := List.Sublist.refl _
  have hleaves : [l.leaf, .plain x.closing].Sublist x.leaves := (hinner.append hclosing).cons _
  exact hleaves.map Leaf.token

end Order

theorem filter_isToken_comma (wrapper : NodeKind) (first : Literal Word)
    (more : List (Word .comma × Literal Word)) :
    (Grammar.argumentTree wrapper first.token :: more.flatMap (commaTrees wrapper)).filter
      (·.isToken .comma) = more.map fun y => .token y.1.1 := by
  have hargument : ∀ l : Literal Word,
      (Grammar.argumentTree wrapper l.token).isToken .comma = false := fun _ => rfl
  have hcomma : ∀ w : Word .comma, w.tree.isToken .comma = true := fun w => by
    rw [Word.tree, Tree.isToken, Tree.kind, w.2]
    rfl
  rw [List.filter_cons_of_neg (by simp [hargument])]
  induction more with
  | nil => rfl
  | cons y more ih =>
    rw [List.flatMap_cons, List.filter_append, ih, commaTrees, List.filter_cons_of_pos (hcomma y.1),
      List.filter_cons_of_neg (by simp [hargument])]
    rfl

section Source
variable {flavor : Flavor} {source : String} {position : Position} {l : Literal Word} {k : Nat}

theorem countP_more {first : Literal Word} {more : List (Word .comma × Literal Word)}
    (hsub : ((innerLeaves (some (first, more))).map Leaf.token).Sublist
      (TokenStream.ofSource flavor source).significant)
    (hl : (first :: more.map Prod.snd)[k]? = some l) (hcontains : l.token.span.contains position = true) :
    (more.map (·.1.1)).countP (decide <| ·.span.start < position) = k := by
  induction k generalizing first more with
  | zero =>
    obtain rfl : first = l := Option.some.inj hl
    rw [List.countP_eq_zero]
    intro t ht
    obtain ⟨y, hy, rfl⟩ := List.mem_map.mp ht
    have hmem : (.plain y.1 : Leaf Word) ∈ more.flatMap commaLeaves :=
      List.mem_flatMap.mpr ⟨y, hy, List.mem_cons_self⟩
    have hbehind : [first.token, y.1.1].Sublist ((innerLeaves (some (first, more))).map Leaf.token) :=
      ((List.singleton_sublist.mpr hmem).cons_cons first.leaf).map Leaf.token
    rw [decide_eq_true_eq]
    exact TokenStream.not_start_lt_of_contains (hbehind.trans hsub) hcontains
  | succ k ih =>
    cases more with
    | nil => cases hl
    | cons y more =>
      have hsub : (y.1.1 :: (innerLeaves (some (y.2, more))).map Leaf.token).Sublist
          (TokenStream.ofSource flavor source).significant := (List.sublist_cons_self _ _).trans hsub
      have hmem : l.token ∈ (innerLeaves (some (y.2, more))).map Leaf.token :=
        List.mem_map_of_mem (leaf_mem_more (List.mem_of_getElem? hl))
      have hlt : y.1.1.span.start < position := TokenStream.start_lt_of_contains
        (((List.singleton_sublist.mpr hmem).cons_cons _).trans hsub) hcontains
      have hrest := ih ((List.sublist_cons_self _ _).trans hsub) hl
      rw [List.map_cons, List.countP_cons_of_pos (by simpa using hlt), hrest]

/-- **The commas that start before a caret are those before the argument at the caret.** -/
theorem countP_commas {x : ArgumentList Word}
    (hsub : (x.leaves.map Leaf.token).Sublist (TokenStream.ofSource flavor source).significant)
    (hl : x.literals[k]? = some l) (hcontains : l.token.span.contains position = true) :
    x.commas.countP (decide <| ·.span.start < position) = k := by
  obtain ⟨opening, _ | ⟨first, more⟩, closing⟩ := x
  · cases hl
  · refine countP_more (List.Sublist.trans ?_ hsub) hl hcontains
    exact ((List.sublist_append_left _ _).trans (List.sublist_cons_self _ _)).map Leaf.token

end Source

end Ast.ArgumentList

/-! ### Argument lists in a document -/

namespace Parse
variable {flavor : Flavor} {source : String} {t : Token}

theorem startOf?_token (h : t ∈ (parse flavor source).stream.significant) :
    (parse flavor source).startOf? (.token t) = some t.span.start := by
  have hknows : ((parse flavor source).checker []).Knows t := Checker.knows_of_mem rfl h
  have hspan : (parse flavor source).spanOf (.token t) = .ok t.span := hknows.spanOf
  rw [startOf?, spanOf?, hspan]
  rfl

end Parse

namespace Analysis

section List
variable {flavor : Flavor} {source : String} {x : ArgumentList Word}
  (hx : (x.leaves.map Leaf.token).Sublist (QuestScript.parse flavor source).stream.significant)
include hx

theorem isPastClosing_toTree (wrapper : NodeKind) (position : Position) :
    (ofSource flavor source).isPastClosing (x.toTree wrapper) position =
      decide (x.closing.1.span.start < position) := by
  have hlast : (x.toTree wrapper).children.getLast? = some x.closing.tree := by
    rw [ArgumentList.children_toTree, ← List.cons_append]
    exact List.getLast?_concat
  have hmem : x.closing.1 ∈ x.leaves.map Leaf.token := by
    simp [ArgumentList.leaves]
  have hstart : (ofSource flavor source).parse.startOf? x.closing.tree = some x.closing.1.span.start :=
    Parse.startOf?_token (hx.subset hmem)
  have hparen : x.closing.tree.isToken .rightParen = true := by
    rw [Word.tree, Tree.isToken, Tree.kind, x.closing.2]
    rfl
  rw [isPastClosing, hlast]
  simp [hparen, hstart]

/-- The parameter that is marked is told by the commas between the arguments. -/
theorem activeParameter_toTree (wrapper : NodeKind) (position : Position) :
    (ofSource flavor source).activeParameter (x.toTree wrapper) position =
      x.commas.countP (decide <| ·.span.start < position) := by
  have hcommas : ∀ t ∈ x.commas, (ofSource flavor source).parse.startOf? (.token t) =
      some t.span.start := fun t ht =>
    Parse.startOf?_token (hx.subset (ArgumentList.mem_leaves_of_mem_commas ht))
  have htoken : ∀ {k} (w : Word k), w.tree.isNode .arguments = false := fun _ => rfl
  rw [activeParameter, ArgumentList.children_toTree]
  obtain ⟨opening, _ | ⟨first, more⟩, closing⟩ := x
  · simp [ArgumentList.innerTrees, htoken, ArgumentList.commas]
  · have hfound : (opening.tree :: (ArgumentList.innerTrees wrapper (some (first, more)) ++
        [closing.tree])).find? (·.isNode .arguments) = some (.node .arguments
          (Grammar.argumentTree wrapper first.token :: more.flatMap (ArgumentList.commaTrees wrapper))) := by
      rw [List.find?_cons_of_neg (by simp [htoken]), ArgumentList.innerTrees, List.singleton_append]
      exact List.find?_cons_of_pos rfl
    have hstarts : (more.map fun y => (.token y.1.1 : Tree)).filterMap
        (ofSource flavor source).parse.startOf? = more.map (·.1.1.span.start) := by
      rw [List.filterMap_map, ← List.filterMap_eq_map]
      exact List.filterMap_congr fun y hy => hcommas _ (List.mem_map_of_mem hy)
    rw [hfound]
    dsimp only
    rw [ArgumentList.children_arguments, ArgumentList.filter_isToken_comma, hstarts, ArgumentList.commas,
      List.countP_map, List.countP_map]
    rfl

end List

section Source
variable {flavor : Flavor} {source : String} {position : Position}

/-- **All that stands in an argument list has it as the nearest list**, whatever errors there are. -/
theorem argumentListAt?_of_mem {list p : Place}
    (hlist : list ∈ (Place.root (QuestScript.parse flavor source).tree).descendants)
    (hnode : list.focus.isNode .argumentList = true) (hp : p ∈ list.descendants) :
    argumentListAt? p = some list := by
  obtain ⟨_ | ⟨k, cs⟩, path⟩ := list
  · cases hnode
  · obtain rfl : k = .argumentList := by simpa [Tree.isNode, Tree.kind] using hnode
    have htolerated := (Parse.isTolerated_tree flavor source).subtrees _
      (Place.isIn_of_mem_descendants hlist).focus
    have hnone : ∀ u ∈ Tree.subtreesOf cs, u.isNode .argumentList = false := fun u hu => by
      simpa using List.filter_eq_nil_iff.mp htolerated.nodesOf_argumentList u hu
    rw [Place.descendants, Place.within, List.mem_cons] at hp
    rcases hp with rfl | hp
    · exact if_pos rfl
    · have hfocus : p.focus ∈ Tree.subtreesOf cs := by
        rw [← Place.map_focus_withinAll .argumentList path []]
        exact List.mem_map_of_mem hp
      rw [argumentListAt?, hnone _ hfocus, if_neg Bool.false_ne_true]
      exact Place.ancestor?_of_mem_node hnone hp

variable {q : Quest Word flavor} {kind : SymbolKind} {x : Invocation Word} {b : Builtin} {f : Frame}
  {path : List Frame}

theorem leaves_listPlace_sublist
    (hlist : x.listPlace flavor f path ∈ (Place.root (QuestScript.parse flavor source).tree).descendants) :
    (x.arguments.leaves.map Leaf.token).Sublist (QuestScript.parse flavor source).stream.significant := by
  have hinfix := Place.leaves_infix hlist
  rw [Parse.leaves_tree, Invocation.listPlace, ArgumentList.leaves_toTree] at hinfix
  exact hinfix.sublist

variable (htree : (QuestScript.parse flavor source).tree = q.toTree)
  (htokens : (QuestScript.parse flavor source).stream.significant = q.tokens)
  (hx : (kind, x) ∈ q.statements.flatMap Statement.invocations)
  (hb : (ofSource flavor source).catalog.lookup? kind x.callee.1.text = some (.builtin b))
include htree htokens hx hb

theorem invoked?_callee {name : Place}
    (hname : name ∈ (Place.root (QuestScript.parse flavor source).tree).descendants)
    (hfocus : name.focus = x.callee.tree) : (ofSource flavor source).invoked? name = some b := by
  obtain ⟨r, -, hr, hcallee⟩ := Quest.exists_callee_namesAt hx
  have hcallee : x.callee.1 ∈ (q.namesAt r).map (·.1) := List.mem_map_of_mem hcallee
  have htoken : name.focus.token? = some x.callee.1 := by rw [hfocus]; rfl
  have hidentifier : (name, x.callee.1) ∈ (ofSource flavor source).identifiers :=
    mem_identifiers.mpr ⟨hname, htoken, x.callee.2⟩
  have hkind : (ofSource flavor source).referenceKind? name = some kind := by
    rw [referenceKind?_of_position htree htokens hidentifier hcallee, hr]
  have hstate : kind ≠ .state := Quest.ne_state_of_mem_invocations hx
  simp [invoked?, htoken, hkind, hstate, hb, Symbol.builtin?]

/-- **What is shown in the argument list of an invocation**, up to its closing parenthesis. -/
theorem signatureHelp_of_mem
    (hlist : x.listPlace flavor f path ∈ (Place.root (QuestScript.parse flavor source).tree).descendants)
    {hit : CaretHit} (hhit : (ofSource flavor source).hitAt position = some hit)
    (helement : hit.element ∈ (x.listPlace flavor f path).descendants) :
    (ofSource flavor source).signatureHelp position =
      if x.arguments.closing.1.span.start < position then none
      else some ⟨b, x.arguments.commas.countP (decide <| ·.span.start < position)⟩ := by
  have hleaves := leaves_listPlace_sublist hlist
  have hnearest : argumentListAt? hit.element = some (x.listPlace flavor f path) :=
    argumentListAt?_of_mem hlist rfl helement
  have hpast := isPastClosing_toTree hleaves (Grammar.argumentKind flavor) position
  have hactive := activeParameter_toTree hleaves (Grammar.argumentKind flavor) position
  have hprevious : (x.listPlace flavor f path).previousPlace? = some _ :=
    Place.previousPlace?_eq rfl x.callee.isHidden_tree
  have hinvoked := invoked?_callee htree htokens hx hb
    (Place.previousPlace?_mem_descendants hlist hprevious) rfl
  have hfocus : (x.listPlace flavor f path).focus =
    x.arguments.toTree (Grammar.argumentKind flavor) := rfl
  rw [signatureHelp, hhit]
  simp only [hnearest, hfocus, hpast, hactive, hprevious, hinvoked, Option.bind_eq_bind, Option.bind_some]
  by_cases hlate : x.arguments.closing.1.span.start < position
  · simp [hlate]
  · simp [hlate]

theorem signatureHelp_of_literal
    (hlist : x.listPlace flavor f path ∈ (Place.root (QuestScript.parse flavor source).tree).descendants)
    {k : Nat} {l : Literal Word} (hl : x.arguments.literals[k]? = some l)
    (hcontains : l.token.span.contains position = true) :
    (ofSource flavor source).signatureHelp position = some ⟨b, k⟩ := by
  have hleaves := leaves_listPlace_sublist hlist
  have hmem : l ∈ x.arguments.literals := List.mem_of_getElem? hl
  have hfocus : (x.listPlace flavor f path).focus.leaves = x.arguments.leaves.map Leaf.token :=
    x.arguments.leaves_toTree _
  obtain ⟨hit, hhit, helement⟩ := exists_hitAt_within hlist
    (hfocus ▸ ArgumentList.opening_before hmem) hcontains
  have hclosing : ¬ x.arguments.closing.1.span.start < position :=
    TokenStream.not_start_lt_of_contains ((ArgumentList.closing_behind hmem).trans hleaves) hcontains
  rw [signatureHelp_of_mem htree htokens hx hb hlist hhit helement, if_neg hclosing,
    ArgumentList.countP_commas hleaves hl hcontains]

end Source

/-- **Signature help tracks the argument.** A document without syntax errors is a quest. From the start to
the end of an argument of an invocation whose name is that of a built-in, the built-in is shown with the
index of the argument, and nothing is shown in the argument list behind the start of its closing
parenthesis. -/
theorem signatureHelp_tracks {flavor : Flavor} {source : String}
    (herrors : (QuestScript.parse flavor source).errors = []) :
    let a := ofSource flavor source
    ∃ q : Quest Word flavor, a.parse.tree = q.toTree ∧ a.parse.stream.significant = q.tokens ∧
      ∀ kind x b, (kind, x) ∈ q.statements.flatMap Statement.invocations →
        a.catalog.lookup? kind x.callee.1.text = some (.builtin b) →
          (∀ k l position, x.arguments.literals[k]? = some l →
            l.token.span.contains position = true → a.signatureHelp position = some ⟨b, k⟩) ∧
          ∃ list ∈ (Place.root a.parse.tree).descendants,
            list.focus = x.arguments.toTree (Grammar.argumentKind flavor) ∧
            ∀ position hit, a.hitAt position = some hit → hit.element ∈ list.descendants →
              x.arguments.closing.1.span.start < position → a.signatureHelp position = none := by
  intro a
  obtain ⟨q, htree, htokens⟩ := Parse.exists_quest herrors
  refine ⟨q, htree, htokens, fun kind x b hx hb => ?_⟩
  obtain ⟨f, path, hlist⟩ := Quest.exists_listPlace hx
  rw [← htree] at hlist
  refine ⟨fun k l position hl hcontains =>
    signatureHelp_of_literal htree htokens hx hb hlist hl hcontains, _, hlist, rfl, ?_⟩
  intro position hit hhit helement hlate
  rw [signatureHelp_of_mem htree htokens hx hb hlist hhit helement, if_pos hlate]

/-- Two of three arguments, on two lines: the carets from the first to behind the closing parenthesis. -/
theorem signatureHelp_tracks_setMap :
    let a := ofSource .eoserv "state A \x7b\n  action SetMap(1,\n    2);\n\x7d"
    ([⟨1, 16⟩, ⟨1, 17⟩, ⟨2, 4⟩, ⟨2, 5⟩, ⟨2, 6⟩] : List Position).map
        (fun position => (a.signatureHelp position).map fun h => (h.builtin.name, h.activeParameter)) =
      [some ("SetMap", 0), some ("SetMap", 0), some ("SetMap", 1), some ("SetMap", 1), none] ∧
    a.parse.errors = [] ∧ ∃ (q : Quest Word .eoserv) (kind : SymbolKind) (x : Invocation Word) (b : Builtin),
      a.parse.tree = q.toTree ∧ (kind, x) ∈ q.statements.flatMap Statement.invocations ∧
      a.catalog.lookup? kind x.callee.1.text = some (.builtin b) ∧
      ∀ k l position, x.arguments.literals[k]? = some l → l.token.span.contains position = true →
        a.signatureHelp position = some ⟨b, k⟩ := by
  intro a
  have herrors : a.parse.errors = [] := List.isEmpty_iff.mp (by decide +kernel)
  obtain ⟨q, htree, htokens, htracks⟩ := signatureHelp_tracks herrors
  -- The missing argument is found, so there is an invocation of a built-in.
  have hfindings := Parse.filter_isArgument_findings herrors htree htokens []
  have hsome : (a.parse.findings []).any (·.problem.isArgument) = true := by decide +kernel
  obtain ⟨f, hf, hargument⟩ := List.any_eq_true.mp hsome
  have hf : f ∈ (a.parse.findings []).filter (·.problem.isArgument) := List.mem_filter.mpr ⟨hf, hargument⟩
  have hf : f ∈ _ := hfindings ▸ hf
  obtain ⟨⟨kind, x⟩, hx, hf⟩ := List.mem_flatMap.mp hf
  unfold Checker.invokedFindings at hf
  split at hf
  · rename_i b hb
    exact ⟨by decide +kernel, herrors, q, kind, x, b, htree, hx, hb, (htracks kind x b hx hb).1⟩
  · cases hf

end Analysis

end QuestScript
