import Mathlib.Data.List.Basic
import Mathlib.Data.Option.Basic
import QuestScript.Diagnostic.Semantic
import QuestScript.Proofs.Tree.Hom

/-! # What is checked in the image of a document

A homomorphism of trees takes what the catalog and the checks read off a tree to what they read off its
image: states with their descriptions, arguments with their types, repeated attributes and descriptions. So
a name finds the same symbol in the image of a catalog (`Catalog.lookup?_map`). -/

namespace QuestScript

/-- The state with its tokens and its block mapped. -/
def StateSymbol.map (f : Token → Token) (g : Tree → Tree) (s : StateSymbol) : StateSymbol :=
  ⟨f s.declaration, g s.block, s.description⟩

/-- The symbol with its tokens and its block mapped. -/
def Symbol.map (f : Token → Token) (g : Tree → Tree) : Symbol → Symbol
  | builtin b => builtin b
  | state s => state (s.map f g)

/-- The catalog with the tokens and blocks of its states mapped. -/
def Catalog.map (f : Token → Token) (g : Tree → Tree) (c : Catalog) : Catalog :=
  ⟨c.flavor, c.states.map (StateSymbol.map f g)⟩

variable {f : Token → Token} {g : Tree → Tree}

/-! ### Nodes -/

/-- The nodes of a kind are the tree, if it is of the kind, and those below its significant children. -/
theorem Tree.filter_isNode_subtrees (t : Tree) (k : NodeKind) : t.subtrees.filter (·.isNode k) =
    (if t.isNode k then [t] else []) ++
      t.children.flatMap fun c => c.subtrees.filter (·.isNode k) := by
  have hchildren : ∀ cs : List Tree, (subtreesOf cs).filter (·.isNode k) =
      (cs.filter (!·.isHidden)).flatMap fun c => c.subtrees.filter (·.isNode k) := by
    intro cs
    induction cs with
    | nil => simp [subtreesOf]
    | cons c cs ih =>
      rw [subtreesOf, List.filter_append, ih]
      cases c with
      | token s => cases hs : s.isHidden <;> simp [subtrees, isNode, kind, isHidden, hs]
      | node n ds => rfl
  cases t with
  | token s => simp [subtrees, isNode, kind, children, allChildren]
  | node n cs =>
    rw [subtrees, List.filter_cons, hchildren]
    cases (node n cs).isNode k <;> rfl

mutual
/-- The nodes of the image are the images of the nodes. -/
theorem Tree.IsHom.nodes (h : IsHom f g) (k : NodeKind) : ∀ t : Tree,
    (g t).subtrees.filter (·.isNode k) = (t.subtrees.filter (·.isNode k)).map g
  | .token s => by
    have hnode : (token s).isNode k = false := rfl
    rw [filter_isNode_subtrees (g _), filter_isNode_subtrees (token s), h.children, h.isNode, hnode]
    rfl
  | .node n cs => by
    have hcs := List.map_inj_left.mp (h.nodesOf k cs)
    rw [filter_isNode_subtrees (g _), filter_isNode_subtrees (node n cs), h.children, h.isNode,
      List.map_append, List.flatMap_map, List.map_flatMap]
    refine congrArg₂ _ ?_ (List.flatMap_congr fun c hc => hcs c (List.mem_filter.mp hc).1)
    split <;> rfl
theorem Tree.IsHom.nodesOf (h : IsHom f g) (k : NodeKind) : ∀ ts : List Tree,
    (ts.map fun t => (g t).subtrees.filter (·.isNode k)) =
      ts.map fun t => (t.subtrees.filter (·.isNode k)).map g
  | [] => rfl
  | t :: ts => by rw [List.map_cons, List.map_cons, h.nodes k t, h.nodesOf k ts]
end

/-! ### Catalogs -/

namespace Tree.IsHom
variable (h : IsHom f g)
include h

theorem childToken? (hf : Token.KeepsKind f) (t : Tree) (k : TokenKind) :
    Catalog.childToken? (g t) k = (Catalog.childToken? t k).map f := by
  have htokens : (g t).children.filterMap Tree.token? = (t.children.filterMap Tree.token?).map f := by
    rw [h.children, List.filterMap_map, List.map_filterMap]
    congr 1
    funext u
    exact h.token? u
  rw [Catalog.childToken?, htokens, List.find?_map, Catalog.childToken?]
  congr 2
  funext u
  exact congrArg (· == k) (hf.kind u)

theorem declaration (hf : Token.KeepsKind f) (t : Tree) :
    (Catalog.stateOf? (g t)).map (·.declaration) =
      ((Catalog.stateOf? t).map (·.declaration)).map f := by
  rw [Catalog.stateOf?, Catalog.stateOf?, h.childToken? hf, Option.map_map, Option.map_map,
    Option.map_map, Option.map_map]
  rfl

variable (hf : Token.IsMove f)
include hf

theorem description? (t : Tree) : Catalog.description? (g t) = Catalog.description? t := by
  rw [Catalog.description?, h.nodes, List.findSome?_map, List.map_findSome?, Catalog.description?,
    List.map_findSome?]
  congr 1
  funext u
  simp only [Function.comp_apply, h.childToken? hf.toKeepsKind, Option.map_map]
  congr 1
  funext v
  exact hf.text v

theorem stateOf? (t : Tree) :
    Catalog.stateOf? (g t) = (Catalog.stateOf? t).map (StateSymbol.map f g) := by
  rw [Catalog.stateOf?, h.childToken? hf.toKeepsKind, h.description? hf, Catalog.stateOf?,
    Option.map_map, Option.map_map]
  rfl

theorem states (t : Tree) :
    ((g t).subtrees.filter (·.isNode .stateBlock)).filterMap Catalog.stateOf? =
      ((t.subtrees.filter (·.isNode .stateBlock)).filterMap Catalog.stateOf?).map
        (StateSymbol.map f g) := by
  rw [h.nodes, List.filterMap_map, List.map_filterMap]
  congr 1
  funext u
  exact h.stateOf? hf u

end Tree.IsHom

section Image
variable (hf : Token.IsMove f)
include hf

theorem StateSymbol.name_map (s : StateSymbol) : (s.map f g).name = s.name := hf.text s.declaration

theorem Symbol.name_map (s : Symbol) : (s.map f g).name = s.name := by
  cases s with
  | builtin b => rfl
  | state s => exact s.name_map hf

omit hf in
theorem Symbol.builtin?_map (s : Symbol) : (s.map f g).builtin? = s.builtin? := by
  cases s <;> rfl

namespace Catalog
variable (c : Catalog)

theorem names_map (kind : SymbolKind) : (c.map f g).names kind = c.names kind := by
  cases kind with
  | rule => rfl
  | action => rfl
  | state =>
    simp only [names, symbols, map, List.map_map]
    exact List.map_congr_left fun s _ => s.name_map hf

theorem statesNamed_map (name : String) :
    (c.map f g).statesNamed name = (c.statesNamed name).map (StateSymbol.map f g) := by
  rw [statesNamed, map, List.filter_map, statesNamed]
  congr 2
  funext s
  rw [Function.comp_apply, s.name_map hf]

/-- **A name finds the same symbol in the image of a catalog.** -/
theorem lookup?_map (kind : SymbolKind) (name : String) :
    (c.map f g).lookup? kind name = (c.lookup? kind name).map (Symbol.map f g) := by
  cases kind with
  | rule =>
    rw [lookup?, lookup?, Option.map_map]
    rfl
  | action =>
    rw [lookup?, lookup?, Option.map_map]
    rfl
  | state =>
    rw [lookup?, lookup?, statesNamed_map hf, List.head?_map, Option.map_map, Option.map_map]
    rfl

end Catalog

end Image

/-! ### Invocations and blocks -/

namespace Tree.IsHom
variable (h : IsHom f g)
include h

theorem argument? (hf : Token.KeepsKind f) (flavor : Flavor) (t : Tree) :
    Invocation.argument? flavor (g t) =
      (Invocation.argument? flavor t).map fun a => (g a.1, a.2) := by
  simp only [Invocation.argument?, Option.bind_eq_bind, Option.pure_def, Option.map_bind,
    Function.comp_def, h.isNode, h.child?, Option.bind_map, h.token?, hf.kind, Option.map_some]

theorem arguments (hf : Token.KeepsKind f) (flavor : Flavor) (list : Tree) :
    Invocation.arguments flavor (g list) =
      (Invocation.arguments flavor list).map fun a => (g a.1, a.2) := by
  rw [Invocation.arguments, h.child?, Invocation.arguments]
  cases list.child? 1 with
  | none => rfl
  | some t =>
    simp only [Option.map_some, h.isNode]
    split
    · rw [h.children, List.filterMap_map, List.map_filterMap]
      congr 1
      funext u
      exact h.argument? hf flavor u
    · rfl

theorem repeatedAttributes (hf : Token.IsMove f) (seen : List String) (ts : List Tree) :
    Checker.repeatedAttributes seen (ts.map g) =
      (Checker.repeatedAttributes seen ts).map fun a => (a.1, g a.2) := by
  fun_induction Checker.repeatedAttributes seen ts with
  | case1 => rfl
  | case2 seen t ts hnone ih =>
    rw [List.map_cons, Checker.repeatedAttributes, h.firstToken?, hnone, Option.map_none]
    exact ih
  | case3 seen t ts keyword hfirst name hseen ih =>
    rw [List.map_cons, Checker.repeatedAttributes, h.firstToken?, hfirst, Option.map_some]
    simp only [hf.text]
    rw [if_pos hseen, ih, List.map_cons]
  | case4 seen t ts keyword hfirst name hseen ih =>
    rw [List.map_cons, Checker.repeatedAttributes, h.firstToken?, hfirst, Option.map_some]
    simp only [hf.text]
    rw [if_neg hseen]
    exact ih

theorem attributes (t : Tree) : (g t).children.filter (·.isNode .mainAttribute) =
    (t.children.filter (·.isNode .mainAttribute)).map g := by
  rw [h.children, List.filter_map, h.comp_isNode]

theorem descriptions (t : Tree) :
    Checker.descriptions (g t) = (Checker.descriptions t).map g := by
  have hchild : ((·.child? 0) ∘ g) = fun u : Tree => (u.child? 0).map g := by
    funext u
    exact h.child? u 0
  rw [Checker.descriptions, h.children, List.filter_map, h.comp_isNode, List.filterMap_map, hchild,
    Checker.descriptions, ← List.map_filterMap, List.filter_map, h.comp_isNode]

end Tree.IsHom

theorem Place.IsHom.argumentList? {h : Place → Place} (hh : IsHom f g h) (p : Place) :
    Invocation.argumentList? (h p) = (Invocation.argumentList? p).map g := by
  rw [Invocation.argumentList?, hh.next?, Invocation.argumentList?]
  cases p.next? with
  | none => rfl
  | some t =>
    simp only [Option.map_some, Option.filter_some, hh.isNode, hh.children, List.length_map]
    split <;> rfl

theorem Place.IsHom.isCondition {h : Place → Place} (hh : IsHom f g h) (p : Place) :
    ((h p).focus.isNode .expression && Anchor.isChildAt Shape.conditional 1 (h p)) =
      (p.focus.isNode .expression && Anchor.isChildAt Shape.conditional 1 p) := by
  rw [hh.isChildAt, hh.focus, hh.isNode]

end QuestScript
