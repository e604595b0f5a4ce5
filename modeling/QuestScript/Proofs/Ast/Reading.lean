import QuestScript.Grammar.Document
import QuestScript.Proofs.Ast.Tree

/-! # Quests are read as they are

A piece of grammar *reads* trees if, wherever their leaves stand ahead of a token that may follow
them, it takes exactly these tokens, builds exactly these trees and records no error. What may follow
matters in two places: a comma would continue a list of arguments, and a semicolon would end a
construct that has none. So the parser reads the tokens of a quest as its tree (`reads_quest`). -/

namespace QuestScript.Ast

open Grammar QuestScript.Tree

/-- From the leaves of `us`, before a token that may follow, the piece builds exactly `us`. -/
def Reads (g : Grammar) (us : List Tree) (follow : TokenKind → Prop) : Prop :=
  ∀ rules rest, follow (kindAhead rest) → g.run rules (leavesOf us ++ rest) = ⟨us, rest, []⟩

/-- Any kind of token. -/
def anything : TokenKind → Prop := fun _ => True

/-- Any kind of token but a semicolon. -/
def noSemicolon : TokenKind → Prop := (· ≠ .semicolon)

/-- The first leaf of the trees is of the kind. -/
def StartsWith (us : List Tree) (k : TokenKind) : Prop :=
  ∃ t ts, leavesOf us = t :: ts ∧ t.kind = k

theorem startsWith_word {k : TokenKind} (w : Word k) (us : List Tree) :
    StartsWith (w.tree :: us) k :=
  ⟨w.1, leavesOf us, by rw [leavesOf_cons, Word.leaves_tree]; rfl, w.2⟩

theorem StartsWith.node {us : List Tree} {k : TokenKind} (h : StartsWith us k) (n : NodeKind)
    (vs : List Tree) : StartsWith (.node n us :: vs) k := by
  obtain ⟨t, ts, hts, ht⟩ := h
  exact ⟨t, ts ++ leavesOf vs, by rw [leavesOf_cons, leaves_node, hts]; rfl, ht⟩

theorem StartsWith.kindAhead_eq {us : List Tree} {k : TokenKind} (h : StartsWith us k)
    (rest : List Token) : kindAhead (leavesOf us ++ rest) = k := by
  obtain ⟨t, ts, hts, ht⟩ := h
  rw [hts]
  exact ht

/-! ### Pieces of grammar -/

section Pieces
variable {g : Grammar} {us vs : List Tree} {F G : TokenKind → Prop}

theorem Reads.weaken (h : Reads g us anything) : Reads g us F :=
  fun rules rest _ => h rules rest trivial

theorem reads_nothing : Reads nothing [] F := fun _ _ _ => rfl

theorem reads_expectIn {k : TokenKind} (kinds : List TokenKind) (w : Word k) :
    Reads (expectIn k kinds) [w.tree] anything := by
  intro rules rest _
  simp [expectIn, w.2, Word.tree]

theorem reads_expect {k : TokenKind} (w : Word k) : Reads (expect k) [w.tree] anything :=
  reads_expectIn [k] w

theorem reads_semicolon (close : Option (Word .semicolon)) :
    Reads semicolon (closeTrees close) noSemicolon := by
  intro rules rest hrest
  cases close with
  | none => exact if_neg hrest
  | some w => exact if_pos w.2

theorem Reads.andThen {h : Grammar} (hg : Reads g us F) (hh : Reads h vs G)
    (hfollow : ∀ rest, G (kindAhead rest) → F (kindAhead (leavesOf vs ++ rest))) :
    Reads (g.andThen h) (us ++ vs) G := by
  intro rules rest hrest
  have hfirst := hg rules (leavesOf vs ++ rest) (hfollow rest hrest)
  simp only [Grammar.andThen]
  rw [leavesOf_append, List.append_assoc, hfirst, hh rules rest hrest, List.append_nil]

theorem Reads.seq {gs : List Grammar} (hg : Reads g us F) (hgs : Reads (Grammar.seq gs) vs G)
    (hfollow : ∀ rest, G (kindAhead rest) → F (kindAhead (leavesOf vs ++ rest))) :
    Reads (Grammar.seq (g :: gs)) (us ++ vs) G :=
  hg.andThen hgs hfollow

/-- Something that anything may follow, then what follows it. -/
theorem Reads.then {gs : List Grammar} (hg : Reads g us anything)
    (hgs : Reads (Grammar.seq gs) vs G) : Reads (Grammar.seq (g :: gs)) (us ++ vs) G :=
  hg.seq hgs fun _ _ => trivial

theorem Reads.last (h : Reads g us F) : Reads (Grammar.seq [g]) us F := by
  have h' : Reads (Grammar.seq [g]) (us ++ []) F :=
    h.andThen reads_nothing fun rest hrest => by rwa [leavesOf_nil]
  rwa [List.append_nil] at h'

theorem Reads.node (h : Reads g us F) (n : NodeKind) : Reads (g.node n) [.node n us] F := by
  intro rules rest hrest
  simp only [Grammar.node, leavesOf_cons, leaves_node, leavesOf_nil, List.append_nil]
  rw [h (rules ++ [n]) rest hrest]

theorem Reads.byKind {choose : TokenKind → Grammar} {k : TokenKind} (h : Reads (choose k) us F)
    (hk : StartsWith us k) : Reads (Grammar.byKind choose) us F := by
  intro rules rest hrest
  simp only [Grammar.byKind]
  rw [hk.kindAhead_eq rest, h rules rest hrest]

end Pieces

/-! ### Repetition -/

/-- The item that starts with a tree's first token, which is no semicolon, reads the tree. -/
def IsItem (item? : TokenKind → Option Grammar) (u : Tree) : Prop :=
  ∃ k g, StartsWith [u] k ∧ k ≠ .semicolon ∧ item? k = some g ∧ Reads g [u] noSemicolon

/-- **A list reads its items one after the other.** -/
theorem run_items {s : Items} {us : List Tree} (hitem : ∀ u ∈ us, IsItem s.item? u)
    (rules : List NodeKind) (rest : List Token) (hfollow : kindAhead rest ≠ .semicolon)
    (hrest : rest = [] ∨ s.item? (kindAhead rest) = none ∧ s.isClosing (kindAhead rest) = true) :
    s.run rules (leavesOf us ++ rest) = ⟨us, rest, []⟩ := by
  induction us with
  | nil =>
    rw [leavesOf_nil, List.nil_append]
    cases rest with
    | nil => rw [Items.run]
    | cons t rest =>
      obtain ⟨hnone, hclosing⟩ := hrest.resolve_left (by simp)
      change s.item? t.kind = none at hnone
      change s.isClosing t.kind = true at hclosing
      rw [Items.run]
      split
      · rename_i g hg
        rw [hnone] at hg
        cases hg
      · rw [if_pos hclosing]
  | cons u us ih =>
    obtain ⟨k, g, hu, -, hg, hreads⟩ := hitem u (by simp)
    have hmore := ih fun v hv => hitem v (by simp [hv])
    have hnext : kindAhead (leavesOf us ++ rest) ≠ .semicolon := by
      cases us with
      | nil => exact hfollow
      | cons v vs =>
        obtain ⟨j, -, ⟨t, ts, hts, ht⟩, hj, -⟩ := hitem v (by simp)
        rw [leavesOf_cons, leavesOf_nil, List.append_nil] at hts
        rw [leavesOf_cons, hts]
        show t.kind ≠ .semicolon
        rwa [ht]
    have hrun := hreads rules _ hnext
    obtain ⟨t, ts, hts, rfl⟩ := hu
    rw [hts] at hrun
    rw [leavesOf_cons, leavesOf_nil, List.append_nil] at hts
    rw [leavesOf_cons, hts, List.append_assoc]
    rw [List.cons_append] at hrun ⊢
    rw [Items.run]
    split
    · rename_i g' hg'
      obtain rfl : g = g' := Option.some.inj (hg.symm.trans hg')
      simp only [hrun, hmore, List.singleton_append, List.append_nil]
    · rename_i hnone
      rw [hg] at hnone
      cases hnone

/-! ### Arguments -/

theorem reads_moreArguments (wrapper : NodeKind) (rules : List NodeKind)
    (more : List (Word .comma × Literal Word)) (rest : List Token)
    (hrest : kindAhead rest ≠ .comma) :
    moreArguments wrapper rules
        (leavesOf (more.flatMap (ArgumentList.commaTrees wrapper)) ++ rest) =
      ⟨more.flatMap (ArgumentList.commaTrees wrapper), rest, []⟩ := by
  induction more with
  | nil =>
    rw [List.flatMap_nil, leavesOf_nil, List.nil_append]
    cases rest with
    | nil => rfl
    | cons t rest =>
      change t.kind ≠ .comma at hrest
      rw [moreArguments.eq_def]
      exact if_neg hrest
  | cons x more ih =>
    have hliteral : x.2.token.kind ∈ literalFirst := x.2.token_mem_first
    simp only [List.flatMap_cons, ArgumentList.commaTrees, List.cons_append, List.nil_append,
      leavesOf_cons, Word.leaves_tree, ArgumentList.leaves_argumentTree, moreArguments, x.1.2,
      if_pos hliteral, if_true, ih]
    rfl

theorem reads_arguments (wrapper : NodeKind) (first : Literal Word)
    (more : List (Word .comma × Literal Word)) :
    Reads (arguments wrapper) (ArgumentList.innerTrees wrapper (some (first, more)))
      (· ≠ .comma) := by
  have hfirst : Reads (argument wrapper) [argumentTree wrapper first.token] anything := by
    intro rules rest _
    rw [leavesOf_cons, ArgumentList.leaves_argumentTree]
    rfl
  refine Reads.node ?_ .arguments
  exact hfirst.then (Reads.last fun rules rest hrest =>
    reads_moreArguments wrapper rules more rest hrest)

theorem reads_argumentListBody (wrapper : NodeKind)
    (inner : Option (Literal Word × List (Word .comma × Literal Word)))
    (closing : Word .rightParen) :
    Reads (argumentListBody wrapper)
      (ArgumentList.innerTrees wrapper inner ++ [closing.tree]) anything := by
  rcases inner with _ | ⟨first, more⟩
  · refine Reads.byKind ?_ (startsWith_word closing [])
    rw [if_neg (by simp [literalFirst])]
    exact reads_expectIn _ closing
  · have hstart : StartsWith
        (ArgumentList.innerTrees wrapper (some (first, more)) ++ [closing.tree]) first.token.kind :=
      ⟨first.token, _, by
        simp [ArgumentList.innerTrees, ArgumentList.leaves_argumentTree]; rfl, rfl⟩
    refine Reads.byKind ?_ hstart
    rw [if_pos first.token_mem_first]
    refine (reads_arguments wrapper first more).seq (Reads.last (reads_expectIn _ closing)) ?_
    intro rest _
    rw [(startsWith_word closing []).kindAhead_eq rest]
    simp

theorem reads_argumentList (wrapper : NodeKind) (x : ArgumentList Word) :
    Reads (argumentList wrapper) [x.toTree wrapper] anything := by
  refine Reads.byKind ?_ ((startsWith_word x.opening _).node .argumentList [])
  rw [if_pos rfl]
  exact ((reads_expect x.opening).then
    (reads_argumentListBody wrapper x.arguments x.closing).last).node .argumentList

/-! ### Statements -/

theorem Expression.startsWith (x : Expression Word) :
    ∃ k ∈ expressionFirst, ∀ us, StartsWith (x.toTree :: us) k := by
  cases x with
  | invocation x =>
    exact ⟨.identifier, by simp [expressionFirst],
      fun us => ((startsWith_word x.callee _).node .invocationExpression []).node .expression us⟩
  | goto keyword target =>
    exact ⟨.keyword .goto, by simp [expressionFirst],
      fun us => ((startsWith_word keyword _).node .gotoExpression []).node .expression us⟩
  | literal x =>
    have h : x.token.kind ∈ literalFirst := x.token_mem_first
    refine ⟨x.token.kind, ?_, fun us => ⟨x.token, leavesOf us, ?_, rfl⟩⟩
    · simp only [expressionFirst, literalFirst, List.mem_cons] at h ⊢
      exact Or.inr (h.imp_right fun h => Or.inl (by simpa using h))
    · simp [toTree, inner, literalTree]

theorem reads_expression (x : Expression Word) : Reads expression [x.toTree] anything := by
  refine Reads.node ?_ .expression
  cases x with
  | invocation x =>
    refine Reads.byKind ?_ ((startsWith_word x.callee _).node .invocationExpression [])
    rw [if_pos rfl]
    exact ((reads_expect x.callee).then (reads_argumentList _ x.arguments).last).node _
  | goto keyword target =>
    refine Reads.byKind ?_ ((startsWith_word keyword _).node .gotoExpression [])
    rw [if_neg (by simp), if_pos rfl]
    exact ((reads_expect keyword).then (reads_expect target).last).node _
  | literal x =>
    have h : x.token.kind ∈ literalFirst := x.token_mem_first
    refine Reads.byKind (k := x.token.kind) ?_ ⟨x.token, [], by simp [Expression.inner, literalTree], rfl⟩
    rw [if_neg (by rintro h'; simp [h', literalFirst] at h),
      if_neg (by rintro h'; simp [h', literalFirst] at h)]
    intro rules rest _
    rfl

theorem reads_expressions (xs : List (Expression Word)) :
    Reads (expressions xs.length) (xs.map Expression.toTree) anything := by
  induction xs with
  | nil => exact reads_nothing
  | cons x xs ih =>
    obtain ⟨k, hk, hstart⟩ := x.startsWith
    refine Reads.byKind ?_ (hstart _)
    rw [if_pos hk]
    exact (reads_expression x).then ih.last

theorem isItem_node {item? : TokenKind → Option Grammar} {j : Keyword} {w : Word (.keyword j)}
    {n m : NodeKind} {g : Grammar} {us : List Tree}
    (hitem : item? (.keyword j) = some (node n (node m g)))
    (h : Reads g (w.tree :: us) noSemicolon) :
    IsItem item? (.node n [.node m (w.tree :: us)]) :=
  ⟨.keyword j, _, ((startsWith_word w us).node m []).node n [], by simp, hitem, (h.node m).node n⟩

theorem statementBody_conditional (c : Conditional) :
    statementBody? .eoserv c.keyword = some (operandStatement c.nodeKind c.keyword 2) := by
  cases c <;> rfl

theorem statementBody_unconditional (c : Unconditional) :
    statementBody? .eoserv c.keyword = some (operandStatement c.nodeKind c.keyword 1) := by
  cases c <;> rfl

theorem isItem_statement {flavor : Flavor} (x : Statement Word flavor) :
    IsItem (statement? flavor) x.toTree := by
  cases x with
  | description keyword text close =>
    refine isItem_node (by cases flavor <;> rfl) ?_
    exact (reads_expect keyword).then ((reads_expect text).then (reads_semicolon close).last)
  | rule keyword condition goto target close =>
    refine isItem_node rfl ?_
    exact (reads_expect keyword).then ((reads_expect condition.callee).then
      ((reads_argumentList _ condition.arguments).then ((reads_expect goto).then
        ((reads_expect target).then (reads_semicolon close).last))))
  | action keyword effect close =>
    refine isItem_node rfl ?_
    exact (reads_expect keyword).then ((reads_expect effect.callee).then
      ((reads_argumentList _ effect.arguments).then (reads_semicolon close).last))
  | conditional c keyword condition effect close =>
    refine isItem_node (by rw [statement?, statementBody_conditional]; rfl) ?_
    exact (reads_expect keyword).then
      ((reads_expressions [condition, effect]).then (reads_semicolon close).last)
  | unconditional c keyword effect close =>
    refine isItem_node (by rw [statement?, statementBody_unconditional]; rfl) ?_
    exact (reads_expect keyword).then
      ((reads_expressions [effect]).then (reads_semicolon close).last)

/-! ### Documents -/

theorem attribute_flag (f : Flag) : attribute? f.keyword = some (f.nodeKind, none) := by
  cases f <;> rfl

theorem isItem_attribute (x : Attribute Word) : IsItem mainAttribute? x.toTree := by
  cases x with
  | questName keyword value close =>
    refine isItem_node rfl ?_
    exact (reads_expect keyword).then ((reads_expect value).then (reads_semicolon close).last)
  | version keyword value close =>
    refine isItem_node rfl ?_
    exact (reads_expect keyword).then ((reads_expect value).then (reads_semicolon close).last)
  | flag f keyword close =>
    refine isItem_node (by rw [mainAttribute?, attribute_flag]; rfl) ?_
    exact (reads_expect keyword).then (reads_nothing.then (reads_semicolon close).last)

theorem reads_listOf {s : Items} {us : List Tree} (hitem : ∀ u ∈ us, IsItem s.item? u)
    (hnone : s.item? .rightBrace = none) (hclosing : s.isClosing .rightBrace = true) :
    Reads (listOf s) us (· = .rightBrace) := by
  intro rules rest hrest
  refine run_items hitem rules rest (by rw [hrest]; simp) (Or.inr ?_)
  rw [hrest]
  exact ⟨hnone, hclosing⟩

theorem forall_mem_map {β : Type} {tree : β → Tree} {item? : TokenKind → Option Grammar}
    (h : ∀ x, IsItem item? (tree x)) (xs : List β) : ∀ u ∈ xs.map tree, IsItem item? u := by
  intro u hu
  obtain ⟨x, -, rfl⟩ := List.mem_map.mp hu
  exact h x

theorem isItem_block {flavor : Flavor} (x : Block Word flavor) :
    IsItem (block? flavor) x.toTree := by
  cases x with
  | main x =>
    refine isItem_node (by cases flavor <;> rfl) ?_
    have hattributes : Reads mainAttributes (x.attributes.map Attribute.toTree) (· = .rightBrace) :=
      reads_listOf (forall_mem_map isItem_attribute _) rfl rfl
    refine (reads_expect x.keyword).then ((reads_expect x.opening).then ?_)
    refine hattributes.seq (reads_expect x.closing).last.weaken fun rest _ => ?_
    exact (startsWith_word x.closing []).kindAhead_eq rest
  | state x =>
    refine isItem_node rfl ?_
    have hstatements :
        Reads (statements flavor) (x.statements.map Statement.toTree) (· = .rightBrace) :=
      reads_listOf (forall_mem_map isItem_statement _) rfl rfl
    refine (reads_expect x.keyword).then ((reads_expect x.name).then ((reads_expect x.opening).then ?_))
    refine hstatements.seq (reads_expect x.closing).last.weaken fun rest _ => ?_
    exact (startsWith_word x.closing []).kindAhead_eq rest

/-- **The tokens of a quest are read as its blocks, without errors.** -/
theorem reads_quest {flavor : Flavor} (q : Quest Word flavor) (rules : List NodeKind) :
    (blocks flavor).run rules q.tokens = ⟨q.blocks.map Block.toTree, [], []⟩ := by
  have hblocks : ∀ u ∈ q.blocks.map Block.toTree, IsItem (block? flavor) u :=
    forall_mem_map isItem_block q.blocks
  rw [← Quest.leaves_toTree, Quest.toTree, leaves_node, ← List.append_nil (leavesOf _)]
  exact run_items hblocks rules [] (by simp [kindAhead]) (Or.inl rfl)

end QuestScript.Ast
