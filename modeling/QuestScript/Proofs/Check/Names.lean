import QuestScript.Editor.Analysis
import QuestScript.Proofs.Check.Catalog

/-! # The names of a document

The names in a document, each with what it refers to. They are all tokens of their kind, whatever the
document looks like (`identifiers_ofSource`), and in a document without syntax errors each refers to
what the quest says that it does (`names_ofSource`). -/

namespace QuestScript

open Ast

/-- The name at a place, and what it refers to. -/
def Place.name? (flavor : Flavor) (p : Place) : Option (Token × Option SymbolKind) :=
  (p.focus.token?.filter (·.kind == .identifier)).map fun t => (t, classify flavor p)

/-- What the word refers to. -/
def Ast.Role.target? : Role → Option SymbolKind
  | refers kind => some kind
  | _ => none

/-- The name at a leaf, and what it refers to. -/
def Ast.Leaf.name? (l : Leaf Word) : Option (Token × Option SymbolKind) :=
  if l.kind = .identifier then some (l.token, l.role.target?) else none

/-! ### Tokens at places -/

theorem Tree.kind_of_token? {t : Tree} {u : Token} (h : t.token? = some u) :
    t.kind = .token u.kind := by
  rw [Tree.eq_token_of_token? h]
  rfl

namespace Place

mutual
theorem tokens_within : ∀ (path : List Frame) (t : Tree),
    (within path t).filterMap (·.focus.token?) = t.leaves
  | path, .token t => by rw [within, Tree.leaves_token]; rfl
  | path, .node k cs => by
    rw [within, List.filterMap_cons_none rfl, tokens_withinAll k path [] cs, Tree.leaves_node]
theorem tokens_withinAll : ∀ (k : NodeKind) (path : List Frame) (before cs : List Tree),
    (withinAll k path before cs).filterMap (·.focus.token?) = Tree.leavesOf cs
  | k, path, before, [] => by rw [withinAll, Tree.leavesOf_nil]; rfl
  | k, path, before, t :: cs => by
    rw [withinAll, List.filterMap_append, tokens_within _ t, tokens_withinAll k path _ cs,
      Tree.leavesOf_cons]
end

end Place

/-! ### Names at places and at leaves -/

/-- The places hold the names that the leaves tell of. -/
def Names (flavor : Flavor) (ps : List Place) (ls : List (Leaf Word)) : Prop :=
  ps.filterMap (Place.name? flavor) = ls.filterMap Leaf.name?

namespace Names
variable {flavor : Flavor} {ps qs : List Place} {ls ms : List (Leaf Word)} {path : List Frame}
  {k : NodeKind} {before cs : List Tree}

theorem nil : Names flavor [] [] := rfl

theorem append (h : Names flavor ps ls) (h' : Names flavor qs ms) :
    Names flavor (ps ++ qs) (ls ++ ms) := by
  rw [Names, List.filterMap_append, List.filterMap_append, h, h']

/-- Where there is no name among the tokens, there is none at places and none at leaves. -/
theorem of_tokens_eq (htokens : ps.filterMap (·.focus.token?) = ls.map Leaf.token)
    (h : ∀ l ∈ ls, l.kind ≠ .identifier) : Names flavor ps ls := by
  have hleaves : ls.filterMap Leaf.name? = [] :=
    List.filterMap_eq_nil_iff.mpr fun l hl => if_neg (h l hl)
  rw [Names, hleaves, List.filterMap_eq_nil_iff]
  intro p hp
  cases htoken : p.focus.token? with
  | none => rw [Place.name?, htoken]; rfl
  | some t =>
    have ht : t ∈ ls.map Leaf.token := by
      rw [← htokens]
      exact List.mem_filterMap.mpr ⟨p, hp, htoken⟩
    obtain ⟨l, hl, rfl⟩ := List.mem_map.mp ht
    have hkind : l.token.kind ≠ .identifier := by
      rw [l.kind_token]
      exact h l hl
    rw [Place.name?, htoken, Option.filter_some, if_neg (by simpa using hkind)]
    rfl

theorem of_leaves_eq {t : Tree} (hleaves : t.leaves = ls.map Leaf.token)
    (h : ∀ l ∈ ls, l.kind ≠ .identifier) : Names flavor (Place.within path t) ls :=
  of_tokens_eq (by rw [Place.tokens_within, hleaves]) h

theorem node (h : Names flavor (Place.withinAll k path [] cs) ls) :
    Names flavor (Place.within path (.node k cs)) ls := by
  rw [Place.within, Names, List.filterMap_cons_none rfl]
  exact h

theorem child {t : Tree} (ht : Names flavor (Place.within (⟨k, before, cs⟩ :: path) t) ls)
    (hcs : Names flavor (Place.withinAll k path (t :: before) cs) ms) :
    Names flavor (Place.withinAll k path before (t :: cs)) (ls ++ ms) := by
  rw [Place.withinAll]
  exact ht.append hcs

theorem next {t : Tree} {l : Leaf Word}
    (ht : Names flavor (Place.within (⟨k, before, cs⟩ :: path) t) [l])
    (hcs : Names flavor (Place.withinAll k path (t :: before) cs) ms) :
    Names flavor (Place.withinAll k path before (t :: cs)) (l :: ms) :=
  child ht hcs

theorem only {t : Tree} (ht : Names flavor (Place.within (⟨k, before, []⟩ :: path) t) ls) :
    Names flavor (Place.withinAll k path before [t]) ls := by
  have h := child ht nil
  rwa [List.append_nil] at h

/-! ### Words -/

theorem word {n : TokenKind} (hn : n ≠ .identifier) (w : Word n) :
    Names flavor (Place.within path w.tree) [.plain w] :=
  of_leaves_eq w.leaves_tree (by simpa [Leaf.plain] using hn)

theorem name {w : Word .identifier} {role : Role}
    (h : classify flavor ⟨w.tree, path⟩ = role.target?) :
    Names flavor (Place.within path w.tree) [⟨.identifier, role, w⟩] := by
  have hplace : Place.name? flavor ⟨.token w.1, path⟩ = some (w.1, role.target?) := by
    rw [← h, Place.name?]
    show (Option.filter _ (some w.1)).map _ = _
    rw [Option.filter_some, w.2]
    rfl
  rw [Word.tree, Place.within, Names, List.filterMap_cons_some hplace]
  rfl

theorem refers {w : Word .identifier} {kind : SymbolKind}
    (h : classify flavor ⟨w.tree, path⟩ = some kind) :
    Names flavor (Place.within path w.tree) [.refers kind w] :=
  name h

theorem declares {w : Word .identifier} (h : classify flavor ⟨w.tree, path⟩ = none) :
    Names flavor (Place.within path w.tree) [.declares w] :=
  name h

theorem ne_identifier_of_isPlain (h : ∀ l ∈ ls, l.IsPlain) : ∀ l ∈ ls, l.kind ≠ .identifier := by
  intro l hl hkind
  have hword := (h l hl).2
  rw [hkind] at hword
  cases hword

theorem close (x : Option (Word .semicolon)) :
    Names flavor (Place.withinAll k path before (closeTrees x)) (Leaf.close x) :=
  of_tokens_eq (by rw [Place.tokens_withinAll, leavesOf_closeTrees])
    (ne_identifier_of_isPlain (isPlain_close x))

theorem arguments (wrapper : NodeKind) (x : ArgumentList Word) :
    Names flavor (Place.within path (x.toTree wrapper)) x.leaves :=
  of_leaves_eq (x.leaves_toTree wrapper) (ne_identifier_of_isPlain x.isPlain_leaves)

/-! ### Statements -/

section Statement
variable {c : Checker}

theorem expression {x : Expression Word} {kind : SymbolKind} {isCondition : Bool} {f : Frame}
    (hplace : Anchor.Invokes kind isCondition ⟨x.toTree, f :: path⟩)
    (hknown : ∀ u ∈ (x.leaves kind).map Leaf.token, c.Knows u) :
    Names .eoserv (Place.within (f :: path) x.toTree) (x.leaves kind) := by
  refine node (only ?_)
  cases x with
  | invocation x => exact node (next (refers (classify_callee hplace)) (only (arguments _ _)))
  | goto keyword target =>
    have hkeyword : c.Knows keyword.1 := hknown _ (by simp [Expression.leaves])
    refine node (next (word (by simp) keyword) (only (refers ?_)))
    exact classify_target hkeyword target _
  | literal x =>
    refine of_leaves_eq (by simp [Expression.inner, Grammar.literalTree]; rfl) ?_
    exact ne_identifier_of_isPlain (List.forall_mem_singleton.mpr x.isPlain_leaf)

theorem statement {x : Statement Word flavor} (hknown : ∀ u ∈ x.leaves.map Leaf.token, c.Knows u) :
    Names flavor (Place.within path x.toTree) x.leaves := by
  refine node (only ?_)
  cases x with
  | description keyword text close =>
    exact node (next (word (by simp) keyword) (next (word (by simp) text) (Names.close close)))
  | rule keyword condition goto target close =>
    have hgoto : c.Knows goto.1 := hknown _ (by simp [Statement.leaves])
    have hkeyword : keyword.tree.isHidden = false := keyword.isHidden_tree
    refine node (next (word (by simp) keyword) (next (refers ?_) (child (arguments _ _)
      (next (word (by simp) goto) (next (refers ?_) (Names.close close))))))
    · exact classify_official condition.callee.isHidden_tree (by simp [hkeyword])
    · exact Checker.classify_officialTarget hgoto target _ _
  | action keyword effect close =>
    have hkeyword : keyword.tree.isHidden = false := keyword.isHidden_tree
    refine node (next (word (by simp) keyword) (next (refers ?_) (child (arguments _ _)
      (Names.close close))))
    exact classify_official effect.callee.isHidden_tree (by simp [hkeyword])
  | conditional condition keyword first second close =>
    simp only [Statement.leaves, List.map_cons, List.map_append, List.forall_mem_cons,
      List.forall_mem_append] at hknown
    obtain ⟨-, hfirst, hsecond, -⟩ := hknown
    exact node (next (word (by simp) keyword)
      (child (expression (condition.invokes_first _ _ keyword first) hfirst)
        (child (expression (condition.invokes_second _ _ keyword first second) hsecond)
          (Names.close close))))
  | unconditional u keyword effect close =>
    simp only [Statement.leaves, List.map_cons, List.map_append, List.forall_mem_cons,
      List.forall_mem_append] at hknown
    obtain ⟨-, heffect, -⟩ := hknown
    exact node (next (word (by simp) keyword)
      (child (expression (u.invokes_only _ _ keyword effect) heffect) (Names.close close)))

end Statement

/-! ### Blocks -/

theorem map {β : Type} {tree : β → Tree} {leaves : β → List (Leaf Word)} {xs : List β}
    {rest : List Tree}
    (hxs : ∀ x ∈ xs, ∀ path, Names flavor (Place.within path (tree x)) (leaves x))
    (hrest : ∀ before, Names flavor (Place.withinAll k path before rest) ms) :
    Names flavor (Place.withinAll k path before (xs.map tree ++ rest)) (xs.flatMap leaves ++ ms) := by
  induction xs generalizing before with
  | nil => exact hrest before
  | cons x xs ih =>
    rw [List.map_cons, List.cons_append, List.flatMap_cons, List.append_assoc]
    exact child (hxs x (by simp) _) (ih fun y hy => hxs y (by simp [hy]))

section Block
variable {c : Checker}

theorem ne_identifier_of_attribute (x : Attribute Word) : ∀ l ∈ x.leaves, l.kind ≠ .identifier := by
  have hclose : ∀ close, ∀ l ∈ (Leaf.close close : List (Leaf Word)), l.kind ≠ .identifier :=
    fun close => ne_identifier_of_isPlain (isPlain_close close)
  cases x with
  | questName keyword value close =>
    exact List.forall_mem_append.mpr ⟨by simp [Leaf.plain], hclose close⟩
  | version keyword value close =>
    exact List.forall_mem_append.mpr ⟨by simp [Leaf.plain], hclose close⟩
  | flag f keyword close => exact List.forall_mem_cons.mpr ⟨by simp [Leaf.plain], hclose close⟩

theorem mainBlock (x : MainBlock Word) : Names flavor (Place.within path x.toTree) x.leaves := by
  refine of_leaves_eq x.leaves_toTree (List.forall_mem_append.mpr ⟨by simp [Leaf.plain], ?_⟩)
  refine List.forall_mem_append.mpr ⟨fun l hl => ?_, by simp [Leaf.plain]⟩
  obtain ⟨y, -, hl⟩ := List.mem_flatMap.mp hl
  exact ne_identifier_of_attribute y l hl

theorem stateBlock {x : StateBlock Word flavor}
    (hknown : ∀ u ∈ x.leaves.map Leaf.token, c.Knows u) :
    Names flavor (Place.within path x.toTree) x.leaves := by
  have hstatements : ∀ y ∈ x.statements, ∀ path,
      Names flavor (Place.within path y.toTree) y.leaves := by
    intro y hy path
    refine statement fun u hu => hknown u ?_
    obtain ⟨l, hl, rfl⟩ := List.mem_map.mp hu
    refine List.mem_map_of_mem (List.mem_append_right _ (List.mem_append_left _ ?_))
    exact List.mem_flatMap.mpr ⟨y, hy, hl⟩
  refine node (next (word (by simp) x.keyword) (next (declares ?_)
    (next (word (by simp) x.opening) (map hstatements fun _ => only (word (by simp) x.closing)))))
  exact classify_block flavor (.inr rfl)

theorem block {x : Block Word flavor} (hknown : ∀ u ∈ x.leaves.map Leaf.token, c.Knows u) :
    Names flavor (Place.within path x.toTree) x.leaves := by
  refine node (only ?_)
  cases x with
  | main x => exact mainBlock x
  | state x => exact stateBlock hknown

theorem quest {q : Quest Word flavor} (hknown : ∀ u ∈ q.tokens, c.Knows u) :
    Names flavor (Place.within [] q.toTree) q.leaves := by
  have hblocks : ∀ x ∈ q.blocks, ∀ path, Names flavor (Place.within path x.toTree) x.leaves := by
    intro x hx path
    refine block fun u hu => hknown u ?_
    obtain ⟨l, hl, rfl⟩ := List.mem_map.mp hu
    exact List.mem_map_of_mem (List.mem_flatMap.mpr ⟨x, hx, hl⟩)
  have h : Names flavor (Place.withinAll .file [] [] (q.blocks.map Block.toTree ++ []))
      (q.blocks.flatMap Block.leaves ++ []) := map hblocks fun _ => nil
  rw [List.append_nil, List.append_nil] at h
  exact node h

end Block

end Names

/-! ### Names of a document -/

theorem TokenStream.filter_significant (s : TokenStream) :
    s.significant.filter (·.kind == .identifier) = s.tokens.filter (·.kind == .identifier) := by
  rw [significant, document, List.filter_filter, List.filter_filter]
  refine List.filter_congr fun t _ => ?_
  by_cases hkind : t.kind = .identifier
  · rw [Token.isSignificant, Token.isHidden, Token.isEnd, hkind]
    rfl
  · rw [beq_false_of_ne hkind]
    rfl

namespace Analysis
variable (flavor : Flavor) (source : String)

/-- **The names in a document are all its tokens of their kind**, in order. -/
theorem identifiers_ofSource : (ofSource flavor source).identifiers.map (·.2) =
    (QuestScript.parse flavor source).stream.tokens.filter (·.kind == .identifier) := by
  have htokens := Place.tokens_within [] (QuestScript.parse flavor source).tree
  rw [Parse.leaves_tree] at htokens
  rw [← TokenStream.filter_significant, ← htokens, List.filter_filterMap, identifiers,
    List.map_filterMap]
  show List.filterMap _ (Place.within [] (QuestScript.parse flavor source).tree) = _
  congr 1
  funext p
  simp [Option.map_map, Function.comp_def]

variable {flavor source}

/-- **In a document without syntax errors each name refers to what the quest says.** -/
theorem names_ofSource {q : Quest Word flavor} (htree : (QuestScript.parse flavor source).tree = q.toTree)
    (htokens : (QuestScript.parse flavor source).stream.significant = q.tokens) :
    (ofSource flavor source).identifiers.map
        (fun i => (i.2, (ofSource flavor source).referenceKind? i.1)) =
      q.leaves.filterMap Leaf.name? := by
  have hnames : Names flavor (Place.within [] q.toTree) q.leaves :=
    Names.quest (Parse.isFor htree htokens []).knows
  rw [← hnames, ← htree, identifiers, List.map_filterMap]
  show List.filterMap _ (Place.within [] (QuestScript.parse flavor source).tree) = _
  congr 1
  funext p
  rw [Option.map_map, Place.name?]
  cases htoken : p.focus.token? with
  | none => rfl
  | some t =>
    by_cases hkind : t.kind = .identifier
    · have hname : p.focus.isToken .identifier = true := by
        rw [Tree.isToken, Tree.kind_of_token? htoken, hkind]
        rfl
      rw [Option.filter_some, hkind]
      exact congrArg (fun kind => some (t, kind)) (if_pos hname)
    · rw [Option.filter_some, if_neg (by simpa using hkind)]
      rfl

end Analysis

end QuestScript
