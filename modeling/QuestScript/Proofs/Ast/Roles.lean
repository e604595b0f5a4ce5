import QuestScript.Proofs.Ast.Basic

/-! # Roles of words

What a word says about a symbol can be told from the word before it (`Role.after`): in every quest,
each leaf has the role that the kind of the leaf before it asks for (`Quest.follows_leaves`). -/

namespace QuestScript.Ast

/-! ### Leaves that are no words -/

/-- The leaf is neither a keyword nor a name. -/
def Leaf.IsPlain {α : TokenKind → Type} (l : Leaf α) : Prop :=
  l.role = .plain ∧ l.kind.isWord = false

section Plain
variable {α : TokenKind → Type}

theorem isPlain_close (close : Option (α .semicolon)) : ∀ l ∈ Leaf.close close, l.IsPlain := by
  cases close <;> simp [Leaf.close, Leaf.plain, Leaf.IsPlain, TokenKind.isWord]

theorem Literal.isPlain_leaf (x : Literal α) : x.leaf.IsPlain := by
  cases x <;> exact ⟨rfl, rfl⟩

theorem ArgumentList.isPlain_leaves (x : ArgumentList α) : ∀ l ∈ x.leaves, l.IsPlain := by
  have hinner : ∀ l ∈ innerLeaves x.arguments, l.IsPlain := by
    rcases x.arguments with _ | ⟨first, more⟩
    · simp [innerLeaves]
    · refine List.forall_mem_cons.mpr ⟨first.isPlain_leaf, fun l hl => ?_⟩
      obtain ⟨y, -, hl⟩ := List.mem_flatMap.mp hl
      rcases List.mem_cons.mp hl with rfl | hl
      · exact ⟨rfl, rfl⟩
      · rw [List.mem_singleton.mp hl]
        exact y.2.isPlain_leaf
  refine List.forall_mem_cons.mpr ⟨⟨rfl, rfl⟩, List.forall_mem_append.mpr ⟨hinner, ?_⟩⟩
  exact List.forall_mem_singleton.mpr ⟨rfl, rfl⟩

theorem Attribute.role_leaves (x : Attribute α) : ∀ l ∈ x.leaves, l.role = .plain := by
  have hclose : ∀ close, ∀ l ∈ (Leaf.close close : List (Leaf α)), l.role = .plain :=
    fun close l hl => (isPlain_close close l hl).1
  cases x with
  | questName keyword value close =>
    exact List.forall_mem_append.mpr ⟨by simp [Leaf.plain], hclose close⟩
  | version keyword value close =>
    exact List.forall_mem_append.mpr ⟨by simp [Leaf.plain], hclose close⟩
  | flag f keyword close => exact List.forall_mem_cons.mpr ⟨rfl, hclose close⟩

theorem MainBlock.role_leaves (x : MainBlock α) : ∀ l ∈ x.leaves, l.role = .plain := by
  refine List.forall_mem_append.mpr ⟨by simp [Leaf.plain], ?_⟩
  refine List.forall_mem_append.mpr ⟨fun l hl => ?_, by simp [Leaf.plain]⟩
  obtain ⟨y, -, hl⟩ := List.mem_flatMap.mp hl
  exact y.role_leaves l hl

end Plain

/-! ### Roles in order -/

/-- The role of a word of kind `k` after one of kind `before`. -/
def Role.after (before k : TokenKind) : Role :=
  match before, k with
  | .keyword .state, .identifier => .declares
  | .keyword .goto, .identifier => .refers .state
  | .keyword .rule, .identifier | .keyword .goal, .identifier | .keyword .ifThen, .identifier
  | .keyword .elseIf, .identifier => .refers .rule
  | _, .identifier => .refers .action
  | _, _ => .plain

variable {α : TokenKind → Type} {flavor : Flavor} {before : TokenKind} {ls ms : List (Leaf α)}

/-- The kind of the last leaf, if there is one, else that of the token before. -/
def lastKind : (before : TokenKind) → List (Leaf α) → TokenKind
  | before, [] => before
  | _, l :: ls => lastKind l.kind ls

/-- Each leaf has the role that the kind before it asks for. -/
def Follows : (before : TokenKind) → List (Leaf α) → Prop
  | _, [] => True
  | before, l :: ls => l.role = .after before l.kind ∧ Follows l.kind ls

theorem follows_append :
    Follows before (ls ++ ms) ↔ Follows before ls ∧ Follows (lastKind before ls) ms := by
  induction ls generalizing before with
  | nil => simp [Follows, lastKind]
  | cons l ls ih => simp only [List.cons_append, Follows, lastKind, ih, and_assoc]

theorem lastKind_append : lastKind before (ls ++ ms) = lastKind (lastKind before ls) ms := by
  induction ls generalizing before with
  | nil => rfl
  | cons l ls ih => exact ih

/-! ### Leaves whose roles depend on nothing before them -/

/-- The roles of the leaves are right whatever comes before. -/
def FollowsAll (ls : List (Leaf α)) : Prop := ∀ before, Follows before ls

theorem FollowsAll.append (h : FollowsAll ls) (h' : FollowsAll ms) : FollowsAll (ls ++ ms) :=
  fun _ => follows_append.mpr ⟨h _, h' _⟩

theorem FollowsAll.flatMap {β : Type} {leaves : β → List (Leaf α)}
    (h : ∀ x, FollowsAll (leaves x)) (xs : List β) : FollowsAll (xs.flatMap leaves) := by
  induction xs with
  | nil => exact fun _ => trivial
  | cons x xs ih =>
    rw [List.flatMap_cons]
    exact (h x).append ih

theorem Role.after_of_ne {k : TokenKind} (h : k ≠ .identifier) (before : TokenKind) :
    Role.after before k = .plain := by
  unfold Role.after
  split <;> first | rfl | exact absurd rfl h

theorem FollowsAll.cons_plain {k : TokenKind} {word : α k} (hk : k ≠ .identifier)
    (h : Follows k ls) : FollowsAll (.plain word :: ls) :=
  fun before => ⟨(Role.after_of_ne hk before).symm, h⟩

theorem followsAll_plain {k : TokenKind} (hk : k ≠ .identifier) (word : α k) :
    FollowsAll [Leaf.plain word] :=
  FollowsAll.cons_plain hk trivial

theorem followsAll_of_isPlain (h : ∀ l ∈ ls, l.IsPlain) : FollowsAll ls := by
  induction ls with
  | nil => exact fun _ => trivial
  | cons l ls ih =>
    rw [List.forall_mem_cons] at h
    obtain ⟨hrole, hword⟩ := h.1
    have hkind : l.kind ≠ .identifier := by
      intro hidentifier
      rw [hidentifier] at hword
      cases hword
    exact fun before => ⟨by rw [hrole, Role.after_of_ne hkind], ih h.2 _⟩

theorem followsAll_close (close : Option (α .semicolon)) : FollowsAll (Leaf.close close) :=
  followsAll_of_isPlain (isPlain_close close)

theorem followsAll_arguments (x : ArgumentList α) : FollowsAll x.leaves :=
  followsAll_of_isPlain x.isPlain_leaves

/-! ### Statements -/

theorem Expression.lastKind_leaves (x : Expression α) (kind : SymbolKind) :
    Role.after (lastKind before (x.leaves kind)) .identifier = .refers .action := by
  cases x with
  | invocation x =>
    rw [leaves, Invocation.leaves, ArgumentList.leaves, ← List.cons_append, ← List.cons_append,
      lastKind_append]
    rfl
  | goto keyword target => rfl
  | literal x => cases x <;> rfl

theorem Expression.follows_leaves (x : Expression α) {kind : SymbolKind}
    (h : Role.after before .identifier = .refers kind) : Follows before (x.leaves kind) := by
  cases x with
  | invocation x => exact ⟨h.symm, followsAll_arguments x.arguments _⟩
  | goto keyword target => exact ⟨(Role.after_of_ne (by simp [Leaf.plain]) before).symm, rfl, trivial⟩
  | literal x =>
    exact followsAll_of_isPlain (List.forall_mem_singleton.mpr x.isPlain_leaf) before

theorem Statement.followsAll_leaves (x : Statement α flavor) : FollowsAll x.leaves := by
  cases x with
  | description keyword text close =>
    exact FollowsAll.cons_plain (by simp)
      ((followsAll_plain (by simp) _).append (followsAll_close close) _)
  | rule keyword condition goto target close =>
    refine FollowsAll.cons_plain (by simp) ⟨rfl, ?_⟩
    have hgoto : FollowsAll [Leaf.plain goto, .refers .state target] :=
      FollowsAll.cons_plain (by simp) ⟨rfl, trivial⟩
    have hrest := hgoto.append (followsAll_close close)
    exact ((followsAll_arguments condition.arguments).append hrest) _
  | action keyword effect close =>
    refine FollowsAll.cons_plain (by simp) ⟨rfl, ?_⟩
    exact ((followsAll_arguments effect.arguments).append (followsAll_close close)) _
  | conditional c keyword condition effect close =>
    have hcondition : Role.after (.keyword c.keyword) .identifier = .refers .rule := by
      cases c <;> rfl
    refine FollowsAll.cons_plain (by simp) (follows_append.mpr ⟨?_, ?_⟩)
    · exact condition.follows_leaves hcondition
    · refine follows_append.mpr ⟨?_, followsAll_close close _⟩
      exact effect.follows_leaves (condition.lastKind_leaves .rule)
  | unconditional c keyword effect close =>
    have heffect : Role.after (.keyword c.keyword) .identifier = .refers .action := by
      cases c <;> rfl
    refine FollowsAll.cons_plain (by simp) (follows_append.mpr ⟨?_, followsAll_close close _⟩)
    exact effect.follows_leaves heffect

/-! ### Blocks -/

theorem Attribute.followsAll_leaves (x : Attribute α) : FollowsAll x.leaves := by
  cases x with
  | questName keyword value close =>
    exact FollowsAll.cons_plain (by simp)
      ((followsAll_plain (by simp) _).append (followsAll_close close) _)
  | version keyword value close =>
    exact FollowsAll.cons_plain (by simp)
      ((followsAll_plain (by simp) _).append (followsAll_close close) _)
  | flag f keyword close => exact FollowsAll.cons_plain (by simp) (followsAll_close close _)

theorem Block.followsAll_leaves (x : Block α flavor) : FollowsAll x.leaves := by
  have hclosing : ∀ w : α .rightBrace, FollowsAll [Leaf.plain w] := followsAll_plain (by simp)
  cases x with
  | main x =>
    have hinner : FollowsAll (x.attributes.flatMap Attribute.leaves ++ [.plain x.closing]) :=
      (FollowsAll.flatMap Attribute.followsAll_leaves _).append (hclosing _)
    exact FollowsAll.cons_plain (by simp) (FollowsAll.cons_plain (by simp) (hinner _) _)
  | state x =>
    have hinner : FollowsAll (x.statements.flatMap Statement.leaves ++ [.plain x.closing]) :=
      (FollowsAll.flatMap Statement.followsAll_leaves _).append (hclosing _)
    exact FollowsAll.cons_plain (by simp) ⟨rfl, FollowsAll.cons_plain (by simp) (hinner _) _⟩

/-- **Roles follow from kinds.** Each leaf of a quest has the role that the kind before it asks for. -/
theorem Quest.followsAll_leaves (q : Quest α flavor) : FollowsAll q.leaves :=
  FollowsAll.flatMap Block.followsAll_leaves q.blocks

end QuestScript.Ast
