import QuestScript.Proofs.Ast.Roles
import QuestScript.Proofs.Ast.Tree

/-! # Names in a quest

The names in a quest stand in four positions: in the header of a state, where a condition or an effect
invokes something, and after `goto`. The leaves with the role of a position are the names there
(`Quest.tokensAt_leaves`), and every name stands in one of them (`Quest.exists_position_iff`). -/

namespace QuestScript.Ast

/-! ### Positions -/

/-- Where a name stands. -/
inductive NamePosition
  /-- It names a state in its header. -/
  | header
  /-- A condition invokes it. -/
  | condition
  /-- An effect invokes it. -/
  | effect
  /-- It comes after `goto`. -/
  | target
deriving DecidableEq, Repr

namespace NamePosition

/-- The role of the names there. -/
def role : NamePosition → Role
  | header => .declares
  | condition => .refers .rule
  | effect => .refers .action
  | target => .refers .state

/-- What the names there refer to. The header of a state refers to nothing. -/
def reference? : NamePosition → Option SymbolKind
  | header => none
  | condition => some .rule
  | effect => some .action
  | target => some .state

theorem role_injective : Function.Injective role := by
  intro r s h
  cases r <;> cases s <;> first | rfl | cases h

@[simp] theorem role_ne_plain (r : NamePosition) : r.role ≠ .plain := by
  cases r <;> simp [role]

theorem exists_role {role : Role} (h : role ≠ .plain) : ∃ r : NamePosition, role = r.role := by
  cases role with
  | plain => exact absurd rfl h
  | declares => exact ⟨header, rfl⟩
  | refers kind =>
    cases kind with
    | rule => exact ⟨condition, rfl⟩
    | action => exact ⟨effect, rfl⟩
    | state => exact ⟨target, rfl⟩

end NamePosition

variable {α : TokenKind → Type} {flavor : Flavor}

namespace Expression

/-- The name that it invokes. -/
def callee? : Expression α → Option (α .identifier)
  | invocation x => some x.callee
  | goto _ _ | literal _ => none

/-- The state that it leads to. -/
def target? : Expression α → Option (α .identifier)
  | goto _ target => some target
  | invocation _ | literal _ => none

end Expression

namespace Statement

/-- The name that its condition invokes. -/
def condition? : Statement α flavor → Option (α .identifier)
  | rule _ condition _ _ _ => some condition.callee
  | conditional _ _ condition _ _ => condition.callee?
  | description _ _ _ | action _ _ _ | unconditional _ _ _ _ => none

/-- The name that its effect invokes. -/
def effect? : Statement α flavor → Option (α .identifier)
  | action _ effect _ => some effect.callee
  | conditional _ _ _ effect _ | unconditional _ _ effect _ => effect.callee?
  | description _ _ _ | rule _ _ _ _ _ => none

/-- The states that it leads to. -/
def targets : Statement α flavor → List (α .identifier)
  | rule _ _ _ target _ => [target]
  | conditional _ _ condition effect _ => condition.target?.toList ++ effect.target?.toList
  | unconditional _ _ effect _ => effect.target?.toList
  | description _ _ _ | action _ _ _ => []

/-- The names in a position of it. -/
def namesAt (x : Statement α flavor) : NamePosition → List (α .identifier)
  | .header => []
  | .condition => x.condition?.toList
  | .effect => x.effect?.toList
  | .target => x.targets

end Statement

/-- The names of a quest in a position. -/
def Quest.namesAt (q : Quest α flavor) : NamePosition → List (α .identifier)
  | .header => q.states.map StateBlock.name
  | r => q.statements.flatMap (·.namesAt r)

/-! ### Names among the leaves -/

/-- The tokens of the leaves with a role. -/
def tokensAt (role : Role) (ls : List (Leaf Word)) : List Token :=
  (ls.filter (·.role == role)).map Leaf.token

section Tokens
variable {r : NamePosition} {role : Role} {ls ms : List (Leaf Word)} {l : Leaf Word}

theorem tokensAt_append : tokensAt role (ls ++ ms) = tokensAt role ls ++ tokensAt role ms := by
  rw [tokensAt, List.filter_append, List.map_append]
  rfl

theorem tokensAt_cons (h : l.role = role) : tokensAt role (l :: ls) = l.token :: tokensAt role ls := by
  rw [tokensAt, List.filter_cons_of_pos (by simp [h]), List.map_cons]
  rfl

theorem tokensAt_cons_of_ne (h : l.role ≠ role) : tokensAt role (l :: ls) = tokensAt role ls := by
  rw [tokensAt, List.filter_cons_of_neg (by simp [h])]
  rfl

theorem tokensAt_cons_plain {k : TokenKind} (word : Word k) :
    tokensAt r.role (.plain word :: ls) = tokensAt r.role ls :=
  tokensAt_cons_of_ne r.role_ne_plain.symm

/-- Where no leaf says anything about a symbol, there is no name. -/
theorem tokensAt_of_plain (h : ∀ l ∈ ls, l.role = .plain) : tokensAt r.role ls = [] := by
  induction ls with
  | nil => rfl
  | cons l ls ih =>
    rw [List.forall_mem_cons] at h
    have hl : l.role ≠ r.role := by
      rw [h.1]
      exact r.role_ne_plain.symm
    rw [tokensAt_cons_of_ne hl, ih h.2]

theorem tokensAt_flatMap {β : Type} {leaves : β → List (Leaf Word)} {names : β → List (Word .identifier)}
    (h : ∀ x, tokensAt role (leaves x) = (names x).map (·.1)) (xs : List β) :
    tokensAt role (xs.flatMap leaves) = (xs.flatMap names).map (·.1) := by
  induction xs with
  | nil => rfl
  | cons x xs ih => rw [List.flatMap_cons, tokensAt_append, h, ih, List.flatMap_cons, List.map_append]

theorem tokensAt_close (close : Option (Word .semicolon)) :
    tokensAt r.role (Leaf.close close) = [] :=
  tokensAt_of_plain fun l hl => (isPlain_close close l hl).1

theorem tokensAt_arguments (x : ArgumentList Word) : tokensAt r.role x.leaves = [] :=
  tokensAt_of_plain fun l hl => (x.isPlain_leaves l hl).1

end Tokens

theorem Invocation.tokensAt_leaves (x : Invocation Word) (r : NamePosition) (kind : SymbolKind) :
    tokensAt r.role (x.leaves kind) = if r.role = .refers kind then [x.callee.1] else [] := by
  have harguments := tokensAt_arguments (r := r) x.arguments
  unfold leaves
  split
  · rename_i h
    rw [tokensAt_cons h.symm, harguments]
    rfl
  · rename_i h
    rw [tokensAt_cons_of_ne (Ne.symm h), harguments]

theorem Expression.tokensAt_leaves (x : Expression Word) (r : NamePosition) (kind : SymbolKind) :
    tokensAt r.role (x.leaves kind) =
      ((if r.role = .refers kind then x.callee?.toList else []) ++
        if r = .target then x.target?.toList else []).map (·.1) := by
  cases x with
  | invocation x =>
    rw [leaves, x.tokensAt_leaves]
    by_cases h : r.role = .refers kind <;> simp [h, callee?, target?]
  | goto keyword target =>
    rw [leaves, tokensAt_cons_plain]
    by_cases h : r = .target
    · subst h
      have hrole : (Leaf.refers .state target).role = NamePosition.target.role := rfl
      rw [tokensAt_cons hrole]
      simp [callee?, target?, tokensAt]
    · have hrole : (Leaf.refers .state target).role ≠ r.role := fun hrole =>
        h (NamePosition.role_injective (show r.role = NamePosition.target.role from hrole.symm))
      rw [tokensAt_cons_of_ne hrole]
      simp [h, callee?, tokensAt]
  | literal x =>
    rw [leaves, tokensAt_of_plain (List.forall_mem_singleton.mpr x.isPlain_leaf.1)]
    simp [callee?, target?]

theorem Statement.tokensAt_leaves (r : NamePosition) (x : Statement Word flavor) :
    tokensAt r.role x.leaves = (x.namesAt r).map (·.1) := by
  cases x with
  | description keyword text close =>
    have hplain : tokensAt r.role ([.plain keyword, .plain text] ++ Leaf.close close) = [] := by
      rw [tokensAt_append, tokensAt_close, tokensAt_cons_plain, tokensAt_cons_plain]
      rfl
    rw [leaves, hplain]
    cases r <;> rfl
  | rule keyword condition goto target close =>
    rw [leaves, tokensAt_cons_plain, tokensAt_append, tokensAt_append, tokensAt_close,
      condition.tokensAt_leaves, tokensAt_cons_plain]
    cases r <;> rfl
  | action keyword effect close =>
    rw [leaves, tokensAt_cons_plain, tokensAt_append, tokensAt_close, effect.tokensAt_leaves]
    cases r <;> rfl
  | conditional c keyword condition effect close =>
    rw [leaves, tokensAt_cons_plain, tokensAt_append, tokensAt_append, tokensAt_close,
      condition.tokensAt_leaves, effect.tokensAt_leaves]
    cases r <;> simp [NamePosition.role, namesAt, condition?, effect?, targets]
  | unconditional c keyword effect close =>
    rw [leaves, tokensAt_cons_plain, tokensAt_append, tokensAt_close, effect.tokensAt_leaves]
    cases r <;> simp [NamePosition.role, namesAt, condition?, effect?, targets]

/-- The names of a block in a position. -/
def Block.namesAt (x : Block α flavor) (r : NamePosition) : List (α .identifier) :=
  Quest.namesAt ⟨[x]⟩ r

theorem Quest.namesAt_eq (q : Quest α flavor) (r : NamePosition) :
    q.namesAt r = q.blocks.flatMap (·.namesAt r) := by
  obtain ⟨blocks⟩ := q
  induction blocks with
  | nil => cases r <;> rfl
  | cons x xs ih =>
    have hstates : (⟨x :: xs⟩ : Quest α flavor).states =
        (⟨[x]⟩ : Quest α flavor).states ++ (⟨xs⟩ : Quest α flavor).states := by
      rw [states, ← List.singleton_append, List.filterMap_append]
      rfl
    rw [List.flatMap_cons, ← ih]
    cases r <;> simp [Block.namesAt, namesAt, statements, hstates]

theorem Block.tokensAt_leaves (r : NamePosition) (x : Block Word flavor) :
    tokensAt r.role x.leaves = (x.namesAt r).map (·.1) := by
  cases x with
  | main x =>
    rw [leaves, tokensAt_of_plain x.role_leaves]
    cases r <;> rfl
  | state x =>
    have hstatements := tokensAt_flatMap (Statement.tokensAt_leaves r) x.statements
    have hclosing : tokensAt r.role [.plain x.closing] = [] := tokensAt_cons_plain _
    have hname : tokensAt r.role [.declares x.name, .plain x.opening] =
        if r = .header then [x.name.1] else [] := by
      cases r <;> rfl
    rw [leaves, StateBlock.leaves, tokensAt_append, tokensAt_cons_plain, tokensAt_append, hname,
      hstatements, hclosing, List.append_nil]
    cases r with
    | header =>
      have hnone : x.statements.flatMap (·.namesAt .header) = [] :=
        List.flatMap_eq_nil_iff.mpr fun _ _ => rfl
      rw [hnone]
      rfl
    | _ => simp [namesAt, Quest.namesAt, Quest.states, Quest.statements, state?]

/-- **The leaves with the role of a position are the names there**, in order. -/
theorem Quest.tokensAt_leaves (r : NamePosition) (q : Quest Word flavor) :
    tokensAt r.role q.leaves = (q.namesAt r).map (·.1) := by
  rw [leaves, tokensAt_flatMap (Block.tokensAt_leaves r), namesAt_eq]

theorem Quest.mem_namesAt {r : NamePosition} {q : Quest Word flavor} {t : Token} :
    t ∈ (q.namesAt r).map (·.1) ↔ ∃ l ∈ q.leaves, l.role = r.role ∧ l.token = t := by
  rw [← q.tokensAt_leaves, tokensAt]
  simp [and_assoc]

/-! ### Names of invocations -/

section Invocations
variable {kind : SymbolKind} {x : Invocation α}

theorem Expression.of_mem_invocations {e : Expression α} {role : SymbolKind}
    (h : (kind, x) ∈ (e.invocation?.map (role, ·)).toList) : kind = role ∧ e = .invocation x := by
  obtain ⟨y, hy, heq⟩ := Option.map_eq_some_iff.mp (Option.mem_toList.mp h)
  obtain ⟨rfl, rfl⟩ := Prod.mk.inj heq
  cases e with
  | invocation e => exact ⟨rfl, congrArg _ (Option.some.inj hy)⟩
  | goto keyword target => cases hy
  | literal l => cases hy

/-- The name of an invocation stands where a condition or an effect invokes something of the kind. -/
theorem Statement.exists_callee_namesAt {s : Statement α flavor} (h : (kind, x) ∈ s.invocations) :
    ∃ r ∈ [NamePosition.condition, .effect], r.reference? = some kind ∧ x.callee ∈ s.namesAt r := by
  cases s with
  | description keyword text close => cases h
  | rule keyword condition goto target close =>
    obtain ⟨rfl, rfl⟩ := Prod.mk.inj (List.mem_singleton.mp h)
    exact ⟨.condition, by simp, rfl, List.mem_cons_self⟩
  | action keyword effect close =>
    obtain ⟨rfl, rfl⟩ := Prod.mk.inj (List.mem_singleton.mp h)
    exact ⟨.effect, by simp, rfl, List.mem_cons_self⟩
  | conditional c keyword condition effect close =>
    rcases List.mem_append.mp h with h | h
    · obtain ⟨rfl, rfl⟩ := Expression.of_mem_invocations h
      exact ⟨.condition, by simp, rfl, List.mem_cons_self⟩
    · obtain ⟨rfl, rfl⟩ := Expression.of_mem_invocations h
      exact ⟨.effect, by simp, rfl, List.mem_cons_self⟩
  | unconditional c keyword effect close =>
    obtain ⟨rfl, rfl⟩ := Expression.of_mem_invocations h
    exact ⟨.effect, by simp, rfl, List.mem_cons_self⟩

variable {q : Quest α flavor}

theorem Quest.exists_callee_namesAt (h : (kind, x) ∈ q.statements.flatMap Statement.invocations) :
    ∃ r ∈ [NamePosition.condition, .effect], r.reference? = some kind ∧ x.callee ∈ q.namesAt r := by
  obtain ⟨s, hs, hx⟩ := List.mem_flatMap.mp h
  obtain ⟨r, hmem, hr, hcallee⟩ := Statement.exists_callee_namesAt hx
  refine ⟨r, hmem, hr, ?_⟩
  cases r with
  | header => cases hr
  | _ => exact List.mem_flatMap.mpr ⟨s, hs, hcallee⟩

theorem Quest.ne_state_of_mem_invocations (h : (kind, x) ∈ q.statements.flatMap Statement.invocations) :
    kind ≠ .state := by
  obtain ⟨r, hmem, hr, -⟩ := exists_callee_namesAt h
  rintro rfl
  cases r with
  | target => simp at hmem
  | _ => cases hr

end Invocations

/-! ### Every name has a position -/

theorem Follows.exists_after {before : TokenKind} {ls : List (Leaf α)} (h : Follows before ls)
    {l : Leaf α} (hl : l ∈ ls) : ∃ k, l.role = .after k l.kind := by
  induction ls generalizing before with
  | nil => cases hl
  | cons m ls ih =>
    rcases List.mem_cons.mp hl with rfl | hl
    · exact ⟨before, h.1⟩
    · exact ih h.2 hl

theorem Role.after_identifier_ne_plain (k : TokenKind) : Role.after k .identifier ≠ .plain := by
  unfold Role.after
  split <;> simp_all

/-- **The leaves that stand in a position are the names.** -/
theorem Quest.exists_position_iff {q : Quest α flavor} {l : Leaf α} (hl : l ∈ q.leaves) :
    (∃ r : NamePosition, l.role = r.role) ↔ l.kind = .identifier := by
  obtain ⟨k, hrole⟩ := (q.followsAll_leaves .endOfInput).exists_after hl
  constructor
  · rintro ⟨r, hr⟩
    by_cases hkind : l.kind = .identifier
    · exact hkind
    · rw [Role.after_of_ne hkind] at hrole
      exact absurd (hr.symm.trans hrole) r.role_ne_plain
  · intro hkind
    refine NamePosition.exists_role ?_
    rw [hrole, hkind]
    exact Role.after_identifier_ne_plain k

end QuestScript.Ast
