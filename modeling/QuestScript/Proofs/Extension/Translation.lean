import QuestScript.Proofs.Ast.Tree

/-! # Official quests as EOSERV quests

An official statement has an EOSERV statement of the same words: what an official rule invokes is the
first operand of the EOSERV rule, its `goto` with the state is the second, and what an official action
invokes is the only operand of the EOSERV action. So a quest has a translation with the same leaves
(`Quest.leaves_toEoserv`), and the translation declares, invokes and describes the same. -/

namespace QuestScript.Ast

variable {α : TokenKind → Type}

namespace Statement

/-- The EOSERV statement of the same words. -/
def toEoserv : Statement α .official → Statement α .eoserv
  | description keyword text close => description keyword text close
  | rule keyword condition goto target close =>
    conditional .rule keyword (.invocation condition) (.goto goto target) close
  | action keyword effect close => unconditional .action keyword (.invocation effect) close

@[simp] theorem leaves_toEoserv (x : Statement α .official) : x.toEoserv.leaves = x.leaves := by
  cases x <;> rfl

@[simp] theorem invocations_toEoserv (x : Statement α .official) :
    x.toEoserv.invocations = x.invocations := by
  cases x <;> rfl

@[simp] theorem isDescription_toEoserv (x : Statement α .official) :
    x.toEoserv.isDescription = x.isDescription := by
  cases x <;> rfl

@[simp] theorem hasGotoCondition_toEoserv (x : Statement α .official) :
    x.toEoserv.hasGotoCondition = false := by
  cases x <;> rfl

end Statement

namespace StateBlock

/-- The EOSERV state of the same words. -/
def toEoserv (x : StateBlock α .official) : StateBlock α .eoserv :=
  ⟨x.keyword, x.name, x.opening, x.statements.map Statement.toEoserv, x.closing⟩

@[simp] theorem statements_toEoserv (x : StateBlock α .official) :
    x.toEoserv.statements = x.statements.map Statement.toEoserv := rfl

@[simp] theorem leaves_toEoserv (x : StateBlock α .official) : x.toEoserv.leaves = x.leaves := by
  simp [leaves, toEoserv, List.flatMap_map]

end StateBlock

namespace Block

/-- The EOSERV block of the same words. -/
def toEoserv : Block α .official → Block α .eoserv
  | main x => main x
  | state x => state x.toEoserv

@[simp] theorem leaves_toEoserv (x : Block α .official) : x.toEoserv.leaves = x.leaves := by
  cases x with
  | main x => rfl
  | state x => exact x.leaves_toEoserv

@[simp] theorem main?_toEoserv (x : Block α .official) : x.toEoserv.main? = x.main? := by
  cases x <;> rfl

@[simp] theorem state?_toEoserv (x : Block α .official) :
    x.toEoserv.state? = x.state?.map StateBlock.toEoserv := by
  cases x <;> rfl

end Block

namespace Quest

/-- The EOSERV quest of the same words. -/
def toEoserv (q : Quest α .official) : Quest α .eoserv := ⟨q.blocks.map Block.toEoserv⟩

variable (q : Quest α .official)

/-- **The translation of a quest has the quest's leaves**, in kind, in role and in word. -/
@[simp] theorem leaves_toEoserv : q.toEoserv.leaves = q.leaves := by
  simp [leaves, toEoserv, List.flatMap_map]

@[simp] theorem mains_toEoserv : q.toEoserv.mains = q.mains := by
  simp only [mains, toEoserv, List.filterMap_map, Function.comp_def, Block.main?_toEoserv]

@[simp] theorem states_toEoserv : q.toEoserv.states = q.states.map StateBlock.toEoserv := by
  simp only [states, toEoserv, List.filterMap_map, Function.comp_def, List.map_filterMap,
    Block.state?_toEoserv]

@[simp] theorem statements_toEoserv :
    q.toEoserv.statements = q.statements.map Statement.toEoserv := by
  simp [statements, List.flatMap_map, List.map_flatMap]

end Quest

@[simp] theorem Quest.tokens_toEoserv (q : Quest Word .official) : q.toEoserv.tokens = q.tokens := by
  rw [tokens, leaves_toEoserv, tokens]

end QuestScript.Ast
