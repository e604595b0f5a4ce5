import QuestScript.Proofs.Grammar.Production

/-! # The grammar of trees with errors

A tree built from tokens that do not follow the grammar still has a shape. Both the grammar of the
documentation and the shape of trees with errors are one table of rules (`ruleOf`), read with a
`Leniency`: with `strict` it is the grammar (`production_eq`), and with `lenient` a demanded token may
be missing or have one skipped token before it, skipped tokens may stand between the items of a
list, an argument list and operands may be missing, and arguments may end in a comma.

A tree is *tolerated* if the children of its nodes spell out the lenient rules and each skipped token
has a node of its own. `Tree.IsTolerated.hasShape` says what then holds at every node, so that its
children can be told by their positions whatever errors there are. -/

namespace QuestScript

/-! ### Rules read strictly and leniently -/

/-- What is asked of the parts of a rule. -/
structure Leniency where
  /-- A token that is demanded. -/
  demanded : TokenKind → Rhs
  /-- The items of a list. -/
  items : NodeKind → Rhs
  /-- The arguments of a name. -/
  argumentList : Rhs
  /-- A number of operands. -/
  operands : Nat → List Rhs
  /-- What stands after the last argument. -/
  lastArgument : List Rhs

namespace Leniency
open Rhs

/-- Everything is asked for, and nothing else may stand there. -/
def strict : Leniency where
  demanded := token
  items n := many (node n)
  argumentList := node .argumentList
  operands n := List.replicate n (node .expression)
  lastArgument := []

/-- At most a number of operands. -/
def upTo : Nat → Rhs
  | 0 => 1
  | n + 1 => optional (node .expression * upTo n)

/-- What is left of a rule after errors. -/
def lenient : Leniency where
  demanded k := optional (sequence [optional (node .error), token k])
  items n := many (choice [node n, node .error])
  argumentList := optional (node .argumentList)
  operands n := [upTo n]
  lastArgument := [optional (token .comma)]

end Leniency

open Rhs in
/-- The right side of the rule of a kind of node. -/
def ruleOf (l : Leniency) : Flavor → NodeKind → Rhs
  | _, .file => l.items .block
  | _, .block => choice [node .mainBlock, node .stateBlock]
  | _, .mainBlock =>
    sequence [keyword .main, l.demanded .leftBrace, l.items .mainAttribute, l.demanded .rightBrace]
  | _, .mainAttribute =>
    choice [node .questNameAttribute, node .versionAttribute, node .hiddenAttribute,
      node .hiddenEndAttribute, node .disabledAttribute]
  | _, .questNameAttribute => sequence [keyword .questName, l.demanded .string, semicolon]
  | _, .versionAttribute => sequence [keyword .version, l.demanded .integer, semicolon]
  | _, .hiddenAttribute => sequence [keyword .hidden, semicolon]
  | _, .hiddenEndAttribute => sequence [keyword .hiddenEnd, semicolon]
  | _, .disabledAttribute => sequence [keyword .disabled, semicolon]
  | _, .stateBlock =>
    sequence [keyword .state, l.demanded .identifier, l.demanded .leftBrace, l.items .statement,
      l.demanded .rightBrace]
  | .official, .statement => choice [node .description, node .rule, node .action]
  | .eoserv, .statement =>
    choice [node .description, node .rule, node .goal, node .ifThen, node .elseIf, node .otherwise,
      node .action]
  | _, .description => sequence [keyword .description, l.demanded .string, semicolon]
  | .official, .rule =>
    sequence [keyword .rule, l.demanded .identifier, l.argumentList, l.demanded (.keyword .goto),
      l.demanded .identifier, semicolon]
  | .official, .action =>
    sequence [keyword .action, l.demanded .identifier, l.argumentList, semicolon]
  | .eoserv, .rule => sequence (keyword .rule :: (l.operands 2 ++ [semicolon]))
  | .eoserv, .goal => sequence (keyword .goal :: (l.operands 2 ++ [semicolon]))
  | .eoserv, .ifThen => sequence (keyword .ifThen :: (l.operands 2 ++ [semicolon]))
  | .eoserv, .elseIf => sequence (keyword .elseIf :: (l.operands 2 ++ [semicolon]))
  | .eoserv, .otherwise => sequence (keyword .otherwise :: (l.operands 1 ++ [semicolon]))
  | .eoserv, .action => sequence (keyword .action :: (l.operands 1 ++ [semicolon]))
  | .eoserv, .invocationExpression => sequence [token .identifier, l.argumentList]
  | .eoserv, .gotoExpression => sequence [keyword .goto, l.demanded .identifier]
  | _, .argumentList =>
    sequence [token .leftParen, optional (node .arguments), l.demanded .rightParen]
  | .official, .arguments =>
    sequence (node .expression :: many (sequence [token .comma, node .expression]) ::
      l.lastArgument)
  | .eoserv, .arguments =>
    sequence (node .argumentExpression ::
      many (sequence [token .comma, node .argumentExpression]) :: l.lastArgument)
  | .official, .expression => node .literal
  | .eoserv, .expression =>
    choice [node .invocationExpression, node .gotoExpression, node .literal]
  | .eoserv, .argumentExpression => node .literal
  | _, .literal => choice [token .integer, token .string]
  | _, _ => 0

/-- **Read strictly, the rules are the grammar.** -/
theorem production_eq (flavor : Flavor) (n : NodeKind) :
    production flavor n = ruleOf .strict flavor n := by
  cases flavor <;> cases n <;> rfl

/-- The right side of a rule after errors. -/
abbrev tolerant (flavor : Flavor) (n : NodeKind) : Rhs := ruleOf .lenient flavor n

/-- The tree has the shape that is left after errors: the children of every node spell out the
node's lenient rule, and every skipped token has a node of its own. -/
inductive Tree.IsTolerated (flavor : Flavor) : Tree → Prop
  | token (t : Token) : IsTolerated flavor (.token t)
  | skipped (t : Token) : IsTolerated flavor (.node .error [.token t])
  | node {n : NodeKind} {cs : List Tree} : cs.map Tree.kind ∈ (tolerant flavor n).matches' →
    (∀ c ∈ cs, IsTolerated flavor c) → IsTolerated flavor (.node n cs)

/-! ### What an expression matches -/

namespace Rhs
variable {e f : Rhs} {es : List Rhs} {k : TokenKind} {n : NodeKind} {w : List Kind}

theorem mem_token : w ∈ (token k).matches' ↔ w = [.token k] := by
  rw [token, RegularExpression.matches'_char]
  exact Set.mem_singleton_iff

theorem mem_node : w ∈ (node n).matches' ↔ w = [.node n] := by
  rw [node, RegularExpression.matches'_char]
  exact Set.mem_singleton_iff

theorem mem_one : w ∈ (1 : Rhs).matches' ↔ w = [] := by
  rw [RegularExpression.matches'_epsilon, Language.mem_one]

theorem mem_mul : w ∈ (e * f).matches' ↔ ∃ u ∈ e.matches', ∃ v ∈ f.matches', w = u ++ v := by
  rw [RegularExpression.matches'_mul, Language.mem_mul]
  simp only [eq_comm]

theorem mem_optional : w ∈ e.optional.matches' ↔ w = [] ∨ w ∈ e.matches' := by
  rw [optional, RegularExpression.matches'_add, Language.mem_add, mem_one]

theorem mem_sequence_nil : w ∈ (sequence []).matches' ↔ w = [] := mem_one

theorem mem_sequence_cons : w ∈ (sequence (e :: es)).matches' ↔
    ∃ u ∈ e.matches', ∃ v ∈ (sequence es).matches', w = u ++ v :=
  mem_mul

theorem mem_choice : w ∈ (choice es).matches' ↔ ∃ e ∈ es, w ∈ e.matches' := by
  induction es with
  | nil => simp [choice, Language.notMem_zero]
  | cons e es ih =>
    rw [choice, RegularExpression.matches'_add, Language.mem_add, ih, List.exists_mem_cons_iff]

theorem mem_many : w ∈ (many e).matches' ↔
    ∃ vs : List (List Kind), w = vs.flatten ∧ ∀ v ∈ vs, v ∈ e.matches' := by
  rw [many, RegularExpression.matches'_star, Language.mem_kstar]

end Rhs

namespace Leniency
variable {k : TokenKind} {n : NodeKind} {w : List Kind}
open Rhs

/-- **A demanded token after errors**: nothing, the token, or a skipped token and the token. -/
theorem mem_demanded : w ∈ (lenient.demanded k).matches' ↔
    w = [] ∨ w = [.token k] ∨ w = [.node .error, .token k] := by
  have hlast : ∀ v, v ∈ (sequence [token k]).matches' ↔ v = [.token k] := by
    intro v
    simp [mem_sequence_cons, mem_sequence_nil, mem_token]
  rw [show lenient.demanded k = optional (sequence [optional (node .error), token k]) from rfl,
    mem_optional, mem_sequence_cons]
  refine or_congr_right ⟨?_, ?_⟩
  · rintro ⟨u, hu, v, hv, rfl⟩
    rw [(hlast v).mp hv]
    rcases mem_optional.mp hu with rfl | hu
    · exact .inl rfl
    · rw [mem_node.mp hu]
      exact .inr rfl
  · rintro (rfl | rfl)
    · exact ⟨[], mem_optional.mpr (.inl rfl), _, (hlast _).mpr rfl, rfl⟩
    · exact ⟨_, mem_optional.mpr (.inr (mem_node.mpr rfl)), _, (hlast _).mpr rfl, rfl⟩

/-- **A list after errors**: its items and skipped tokens in any order. -/
theorem mem_items : w ∈ (lenient.items n).matches' ↔ ∀ x ∈ w, x = .node n ∨ x = .node .error := by
  have hitem : ∀ v, v ∈ (choice [node n, node .error]).matches' ↔
      v = [.node n] ∨ v = [.node .error] := by
    intro v
    simp [mem_choice, mem_node]
  rw [show lenient.items n = many (choice [node n, node .error]) from rfl, mem_many]
  constructor
  · rintro ⟨vs, rfl, hvs⟩ x hx
    obtain ⟨v, hv, hx⟩ := List.mem_flatten.mp hx
    rcases (hitem v).mp (hvs v hv) with rfl | rfl
    · exact .inl (List.mem_singleton.mp hx)
    · exact .inr (List.mem_singleton.mp hx)
  · intro h
    refine ⟨w.map ([·]), (List.flatMap_singleton' w).symm, fun v hv => ?_⟩
    obtain ⟨x, hx, rfl⟩ := List.mem_map.mp hv
    exact (hitem _).mpr ((h x hx).imp (congrArg ([·])) (congrArg ([·])))

end Leniency

/-! ### What holds at every node -/

/-- The keyword with which the rule of a kind of node starts. -/
def NodeKind.leader? : NodeKind → Option Keyword
  | .mainBlock => some .main
  | .questNameAttribute => some .questName
  | .versionAttribute => some .version
  | .hiddenAttribute => some .hidden
  | .hiddenEndAttribute => some .hiddenEnd
  | .disabledAttribute => some .disabled
  | .stateBlock => some .state
  | .description => some .description
  | .rule => some .rule
  | .goal => some .goal
  | .ifThen => some .ifThen
  | .elseIf => some .elseIf
  | .otherwise => some .otherwise
  | .action => some .action
  | .gotoExpression => some .goto
  | _ => none

/-- The kinds of nodes around exactly one other node. -/
def NodeKind.isWrapper : NodeKind → Bool
  | .block | .mainAttribute | .statement | .expression => true
  | _ => false

/-- **What holds at a node whatever errors there are.** -/
structure Tree.HasShape (t : Tree) : Prop where
  /-- A file has blocks and skipped tokens only. -/
  file : t.isNode .file = true → ∀ c ∈ t.allChildren, c.isNode .block = true ∨ c.isNode .error = true
  /-- A skipped token has a node of its own. -/
  skipped : t.isNode .error = true → ∃ s, t.allChildren = [.token s]
  /-- Wrappers are around one node. -/
  wrapper : ∀ n : NodeKind, n.isWrapper = true → t.isNode n = true → ∃ m cs, t.allChildren = [.node m cs]
  /-- What starts with a keyword does so after errors, too. -/
  leader : ∀ n k, NodeKind.leader? n = some k → t.isNode n = true →
    ∃ s cs, t.allChildren = .token s :: cs ∧ s.kind = .keyword k
  /-- A state has at most one name. -/
  name : t.isNode .stateBlock = true → t.allChildren.countP (·.isToken .identifier) ≤ 1

section Shape
variable {flavor : Flavor} {n : NodeKind} {cs : List Tree}
open Rhs Leniency

theorem Tree.isNode_iff {t : Tree} {n : NodeKind} : t.isNode n = true ↔ t.kind = .node n := by
  rw [isNode, beq_iff_eq]

theorem exists_node_of_isWrapper (hn : n.isWrapper = true) {w : List Kind}
    (h : w ∈ (tolerant flavor n).matches') : ∃ m, w = [.node m] := by
  have hchoice : ∀ ns : List NodeKind, w ∈ (choice (ns.map node)).matches' → ∃ m, w = [.node m] := by
    intro ns hw
    obtain ⟨e, he, hw⟩ := mem_choice.mp hw
    obtain ⟨m, -, rfl⟩ := List.mem_map.mp he
    exact ⟨m, mem_node.mp hw⟩
  cases n <;> simp only [NodeKind.isWrapper, Bool.false_eq_true] at hn
  · cases flavor <;> exact hchoice [.mainBlock, .stateBlock] h
  · cases flavor <;> exact hchoice [.questNameAttribute, .versionAttribute, .hiddenAttribute,
      .hiddenEndAttribute, .disabledAttribute] h
  · cases flavor
    · exact hchoice [.description, .rule, .action] h
    · exact hchoice [.description, .rule, .goal, .ifThen, .elseIf, .otherwise, .action] h
  · cases flavor
    · exact ⟨.literal, mem_node.mp h⟩
    · exact hchoice [.invocationExpression, .gotoExpression, .literal] h

theorem exists_cons_of_leader {k : Keyword} (hn : n.leader? = some k) {w : List Kind}
    (h : w ∈ (tolerant flavor n).matches') : ∃ v, w = .token (.keyword k) :: v := by
  have hsequence : ∀ es, w ∈ (sequence (keyword k :: es)).matches' →
      ∃ v, w = .token (.keyword k) :: v := by
    intro es hw
    obtain ⟨u, hu, v, -, rfl⟩ := mem_sequence_cons.mp hw
    rw [mem_token.mp hu]
    exact ⟨v, rfl⟩
  cases n <;> simp only [NodeKind.leader?, Option.some.injEq, reduceCtorEq] at hn <;> subst hn <;>
    cases flavor <;> first | exact hsequence _ h | exact absurd h (Language.notMem_zero w)

/-- Only the first part of a state's rule has an identifier. -/
theorem count_identifier_le {w : List Kind} (h : w ∈ (tolerant flavor .stateBlock).matches') :
    w.count (.token .identifier) ≤ 1 := by
  have hrule : tolerant flavor .stateBlock = sequence [keyword .state, lenient.demanded .identifier,
      lenient.demanded .leftBrace, lenient.items .statement, lenient.demanded .rightBrace] := by
    cases flavor <;> rfl
  have hbrace : ∀ {k : TokenKind} {u : List Kind}, k ≠ .identifier →
      u ∈ (lenient.demanded k).matches' → u.count (.token .identifier) = 0 := by
    intro k u hk hu
    rcases mem_demanded.mp hu with rfl | rfl | rfl <;> simp [hk]
  rw [hrule] at h
  obtain ⟨first, hfirst, w₁, h₁, rfl⟩ := mem_sequence_cons.mp h
  obtain ⟨name, hname, w₂, h₂, rfl⟩ := mem_sequence_cons.mp h₁
  obtain ⟨left, hleft, w₃, h₃, rfl⟩ := mem_sequence_cons.mp h₂
  obtain ⟨items, hitems, w₄, h₄, rfl⟩ := mem_sequence_cons.mp h₃
  obtain ⟨right, hright, w₅, h₅, rfl⟩ := mem_sequence_cons.mp h₄
  have hitems : items.count (.token .identifier) = 0 := by
    refine List.count_eq_zero.mpr fun hmem => ?_
    rcases mem_items.mp hitems _ hmem with hitem | hitem <;> cases hitem
  have hname : name.count (.token .identifier) ≤ 1 := by
    rcases mem_demanded.mp hname with rfl | rfl | rfl <;> simp
  rw [mem_token.mp hfirst, mem_sequence_nil.mp h₅]
  simp only [List.count_append, hbrace (by simp) hleft, hbrace (by simp) hright, hitems]
  simpa using hname

/-- **A tolerated tree has its shape at the root.** -/
theorem Tree.IsTolerated.hasShape {t : Tree} (h : t.IsTolerated flavor) : t.HasShape := by
  cases h with
  | token s => constructor <;> simp [isNode, kind]
  | skipped s =>
    refine ⟨by simp [isNode, kind], fun _ => ⟨s, rfl⟩, ?_, ?_, by simp [isNode, kind]⟩
    · intro n hn ht
      obtain rfl : .error = n := by simpa [isNode, kind] using ht
      cases hn
    · intro n k hn ht
      obtain rfl : .error = n := by simpa [isNode, kind] using ht
      cases hn
  | @node m cs hcs hall =>
    have hm : ∀ {n : NodeKind}, (Tree.node m cs).isNode n = true → m = n := by
      intro n h
      simpa [isNode, kind] using h
    refine ⟨fun h c hc => ?_, fun h => ?_, fun n hn h => ?_, fun n k hn h => ?_, fun h => ?_⟩
    · obtain rfl := hm h
      have hitems : cs.map Tree.kind ∈ (lenient.items .block).matches' := by
        cases flavor <;> exact hcs
      rw [isNode_iff, isNode_iff]
      exact mem_items.mp hitems _ (List.mem_map_of_mem hc)
    · obtain rfl := hm h
      cases flavor <;> exact absurd hcs (Language.notMem_zero _)
    · obtain rfl := hm h
      obtain ⟨j, hj⟩ := exists_node_of_isWrapper hn hcs
      obtain ⟨c, ds, rfl, hc, hds⟩ := List.map_eq_cons_iff.mp hj
      obtain rfl := List.map_eq_nil_iff.mp hds
      cases c with
      | token s => cases hc
      | node j ds => exact ⟨j, ds, rfl⟩
    · obtain rfl := hm h
      obtain ⟨v, hv⟩ := exists_cons_of_leader hn hcs
      obtain ⟨c, ds, rfl, hc, -⟩ := List.map_eq_cons_iff.mp hv
      cases c with
      | token s => exact ⟨s, ds, rfl, Kind.token.inj hc⟩
      | node j es => cases hc
    · obtain rfl := hm h
      have hcount := count_identifier_le hcs
      rw [List.count, List.countP_map] at hcount
      exact hcount

mutual
theorem Tree.IsTolerated.subtrees : ∀ {t : Tree}, t.IsTolerated flavor →
    ∀ u ∈ t.subtrees, u.IsTolerated flavor
  | .token t, h, u, hu => by
    rw [Tree.subtrees, List.mem_singleton] at hu
    rw [hu]
    exact h
  | .node n cs, h, u, hu => by
    rw [Tree.subtrees, List.mem_cons] at hu
    rcases hu with rfl | hu
    · exact h
    · refine IsTolerated.subtreesOf ?_ u hu
      cases h with
      | skipped t => exact List.forall_mem_singleton.mpr (.token t)
      | node _ hall => exact hall
theorem Tree.IsTolerated.subtreesOf : ∀ {ts : List Tree}, (∀ t ∈ ts, t.IsTolerated flavor) →
    ∀ u ∈ Tree.subtreesOf ts, u.IsTolerated flavor
  | [], _, u, hu => by simp [Tree.subtreesOf] at hu
  | t :: ts, h, u, hu => by
    rw [Tree.subtreesOf, List.mem_append] at hu
    rcases hu with hu | hu
    · exact (h t (by simp)).subtrees u hu
    · exact IsTolerated.subtreesOf (fun v hv => h v (by simp [hv])) u hu
end

end Shape

end QuestScript
