import QuestScript.Grammar.Document

/-! # How the grammar is put together

A piece of grammar is *made* (`Grammar.Made`) if it is one of a few pieces that take tokens, or put together
from pieces that are made. The whole grammar is (`made_blocks`). So what holds of the few pieces and is kept
by each way of putting pieces together holds of the whole grammar, by induction on how it is made. -/

namespace QuestScript.Grammar

/-- The piece is put together from pieces that take tokens. -/
inductive Made : Grammar → Prop
  | nothing : Made nothing
  | next : Made next
  | optional (k : TokenKind) : Made (optional k)
  | missing (kinds : List TokenKind) : Made (missing kinds)
  | expectIn (k : TokenKind) (kinds : List TokenKind) : Made (expectIn k kinds)
  | moreArguments {g : Grammar} (wrapper : NodeKind) (run_eq : g.run = moreArguments wrapper) : Made g
  | andThen {g h : Grammar} (first : Made g) (second : Made h) : Made (g.andThen h)
  | node {g : Grammar} (n : NodeKind) (children : Made g) : Made (g.node n)
  | byKind {choose : TokenKind → Grammar} (each : ∀ k, Made (choose k)) : Made (byKind choose)
  | listOf {s : Items} (item : ∀ k g, s.item? k = some g → Made g) : Made (listOf s)

variable {g : Grammar} {k : TokenKind} {flavor : Flavor}

@[simp] theorem made_nothing : Made nothing := .nothing

@[simp] theorem made_expect : Made (expect k) := .expectIn k [k]

@[simp] theorem made_expectIn (kinds : List TokenKind) : Made (expectIn k kinds) := .expectIn k kinds

theorem made_seq {gs : List Grammar} (h : ∀ g ∈ gs, Made g) : Made (seq gs) := by
  induction gs with
  | nil => exact .nothing
  | cons g gs ih =>
    rw [List.forall_mem_cons] at h
    exact .andThen h.1 (ih h.2)

/-! ### Literals and argument lists -/

theorem made_literal : Made literal := .node _ .next

theorem made_arguments (wrapper : NodeKind) : Made (arguments wrapper) := by
  refine .node _ (made_seq (List.forall_mem_cons.mpr ⟨.node _ made_literal, ?_⟩))
  exact List.forall_mem_singleton.mpr (.moreArguments wrapper rfl)

theorem made_argumentListBody (wrapper : NodeKind) : Made (argumentListBody wrapper) := by
  refine .byKind fun k => ?_
  split
  · exact made_seq (by simp [made_arguments])
  · exact .expectIn _ _

@[simp] theorem made_argumentList (wrapper : NodeKind) : Made (argumentList wrapper) := by
  refine .byKind fun k => ?_
  split
  · exact .node _ (made_seq (by simp [made_argumentListBody]))
  · exact .missing _

/-! ### Statements -/

@[simp] theorem made_semicolon : Made semicolon := .optional _

@[simp] theorem made_keyword (j : Keyword) : Made (keyword j) := made_expect

theorem made_description : Made description := .node _ (made_seq (by simp))

theorem made_officialRule : Made officialRule := .node _ (made_seq (by simp))

theorem made_officialAction : Made officialAction := .node _ (made_seq (by simp))

theorem made_expression : Made expression := by
  refine .node _ (.byKind fun k => ?_)
  split
  · exact .node _ (made_seq (by simp))
  · split
    · exact .node _ (made_seq (by simp))
    · exact made_literal

@[simp] theorem made_expressions (operands : Nat) : Made (expressions operands) := by
  induction operands with
  | zero => exact .nothing
  | succ operands ih =>
    refine .byKind fun k => ?_
    split
    · exact made_seq (by simp [made_expression, ih])
    · exact .missing _

theorem made_operandStatement (n : NodeKind) (j : Keyword) (operands : Nat) :
    Made (operandStatement n j operands) :=
  .node _ (made_seq (by simp))

theorem made_statementBody {j : Keyword} (h : statementBody? flavor j = some g) : Made g := by
  cases flavor <;> cases j <;>
    simp only [statementBody?, Option.some.injEq, reduceCtorEq] at h <;> subst h <;>
    first
    | exact made_description
    | exact made_officialRule
    | exact made_officialAction
    | exact made_operandStatement _ _ _

theorem made_statement (h : statement? flavor k = some g) : Made g := by
  cases k <;> simp only [statement?, reduceCtorEq, Option.map_eq_some_iff] at h
  obtain ⟨body, hbody, rfl⟩ := h
  exact .node _ (made_statementBody hbody)

/-! ### Documents -/

theorem made_mainAttribute (h : mainAttribute? k = some g) : Made g := by
  cases k <;> simp only [mainAttribute?, reduceCtorEq, Option.map_eq_some_iff] at h
  obtain ⟨⟨n, value⟩, -, rfl⟩ := h
  refine .node _ (.node _ (made_seq ?_))
  cases value <;> simp

theorem made_mainBlock : Made mainBlock := by
  have hattributes : Made mainAttributes := .listOf fun _ _ => made_mainAttribute
  exact .node _ (made_seq (by simp [hattributes]))

theorem made_stateBlock : Made (stateBlock flavor) := by
  have hstatements : Made (statements flavor) := .listOf fun _ _ => made_statement
  exact .node _ (made_seq (by simp [hstatements]))

theorem made_block (h : block? flavor k = some g) : Made g := by
  unfold block? at h
  split at h <;> simp only [Option.some.injEq, reduceCtorEq] at h <;> subst h
  · exact .node _ made_mainBlock
  · exact .node _ made_stateBlock

/-- **The whole grammar is put together.** -/
theorem made_blocks (flavor : Flavor) : Made (blocks flavor) := .listOf fun _ _ => made_block

end QuestScript.Grammar
