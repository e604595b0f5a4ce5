import QuestScript.Proofs.Ast.Tree

/-! # Quests with other words

Every construct of the language has its words in fixed places, so other words of the same kinds can be
put there (`Quest.map`). The leaves of the quest that results are those of the quest, with the other
words (`Quest.leaves_map`). -/

namespace QuestScript.Ast

variable {α β : TokenKind → Type} (g : ∀ k, α k → β k) {flavor : Flavor}

/-! ### Words put in place of words -/

/-- The leaf with another word. -/
def Leaf.map (l : Leaf α) : Leaf β := ⟨l.kind, l.role, g l.kind l.word⟩

/-- The literal with another word. -/
def Literal.map : Literal α → Literal β
  | integer word => .integer (g _ word)
  | string word => .string (g _ word)

namespace ArgumentList

/-- The comma and the argument after it with other words. -/
def mapComma (x : α .comma × Literal α) : β .comma × Literal β := (g _ x.1, x.2.map g)

/-- What stands between the parentheses, with other words. -/
def mapInner : Option (Literal α × List (α .comma × Literal α)) →
    Option (Literal β × List (β .comma × Literal β))
  | none => none
  | some (first, more) => some (first.map g, more.map (mapComma g))

/-- The arguments with other words. -/
def map (x : ArgumentList α) : ArgumentList β :=
  ⟨g _ x.opening, mapInner g x.arguments, g _ x.closing⟩

end ArgumentList

/-- The invocation with other words. -/
def Invocation.map (x : Invocation α) : Invocation β := ⟨g _ x.callee, x.arguments.map g⟩

/-- The expression with other words. -/
def Expression.map : Expression α → Expression β
  | invocation x => .invocation (x.map g)
  | goto keyword target => .goto (g _ keyword) (g _ target)
  | literal x => .literal (x.map g)

/-- The statement with other words. -/
def Statement.map : Statement α flavor → Statement β flavor
  | description keyword text close => .description (g _ keyword) (g _ text) (close.map (g _))
  | rule keyword condition goto target close =>
    .rule (g _ keyword) (condition.map g) (g _ goto) (g _ target) (close.map (g _))
  | action keyword effect close => .action (g _ keyword) (effect.map g) (close.map (g _))
  | conditional c keyword condition effect close =>
    .conditional c (g _ keyword) (condition.map g) (effect.map g) (close.map (g _))
  | unconditional c keyword effect close =>
    .unconditional c (g _ keyword) (effect.map g) (close.map (g _))

/-- The attribute with other words. -/
def Attribute.map : Attribute α → Attribute β
  | questName keyword value close => .questName (g _ keyword) (g _ value) (close.map (g _))
  | version keyword value close => .version (g _ keyword) (g _ value) (close.map (g _))
  | flag f keyword close => .flag f (g _ keyword) (close.map (g _))

/-- The main block with other words. -/
def MainBlock.map (x : MainBlock α) : MainBlock β :=
  ⟨g _ x.keyword, g _ x.opening, x.attributes.map (Attribute.map g), g _ x.closing⟩

/-- The state with other words. -/
def StateBlock.map (x : StateBlock α flavor) : StateBlock β flavor :=
  ⟨g _ x.keyword, g _ x.name, g _ x.opening, x.statements.map (Statement.map g), g _ x.closing⟩

/-- The block with other words. -/
def Block.map : Block α flavor → Block β flavor
  | main x => .main (x.map g)
  | state x => .state (x.map g)

/-- The quest with other words. -/
def Quest.map (q : Quest α flavor) : Quest β flavor := ⟨q.blocks.map (Block.map g)⟩

/-! ### Leaves -/

@[simp] theorem Leaf.map_plain {k : TokenKind} (word : α k) :
    (Leaf.plain word).map g = .plain (g k word) := rfl

@[simp] theorem Leaf.map_refers (kind : SymbolKind) (word : α .identifier) :
    (Leaf.refers kind word).map g = .refers kind (g _ word) := rfl

@[simp] theorem Leaf.map_declares (word : α .identifier) :
    (Leaf.declares word).map g = .declares (g _ word) := rfl

@[simp] theorem Leaf.map_close (close : Option (α .semicolon)) :
    (Leaf.close close).map (Leaf.map g) = Leaf.close (close.map (g _)) := by
  cases close <;> rfl

@[simp] theorem Literal.leaf_map (x : Literal α) : (x.map g).leaf = x.leaf.map g := by
  cases x <;> rfl

theorem flatMap_leaves_map {γ δ : Type} {f : γ → δ} {leaves : γ → List (Leaf α)}
    {leaves' : δ → List (Leaf β)} (h : ∀ x, leaves' (f x) = (leaves x).map (Leaf.map g))
    (xs : List γ) : (xs.map f).flatMap leaves' = (xs.flatMap leaves).map (Leaf.map g) := by
  rw [List.flatMap_map, List.map_flatMap]
  exact congrArg (xs.flatMap ·) (funext h)

theorem ArgumentList.leaves_map (x : ArgumentList α) :
    (x.map g).leaves = x.leaves.map (Leaf.map g) := by
  have hinner : innerLeaves (mapInner g x.arguments) =
      (innerLeaves x.arguments).map (Leaf.map g) := by
    rcases x.arguments with _ | ⟨first, more⟩
    · rfl
    · have hcomma : ∀ y, commaLeaves (mapComma g y) = (commaLeaves y).map (Leaf.map g) :=
        fun y => by simp [commaLeaves, mapComma]
      have hmore := flatMap_leaves_map g hcomma more
      simp [innerLeaves, mapInner, hmore]
  simp [leaves, map, hinner]

theorem Invocation.leaves_map (kind : SymbolKind) (x : Invocation α) :
    (x.map g).leaves kind = (x.leaves kind).map (Leaf.map g) := by
  simp [leaves, map, ArgumentList.leaves_map]

theorem Expression.leaves_map (kind : SymbolKind) (x : Expression α) :
    (x.map g).leaves kind = (x.leaves kind).map (Leaf.map g) := by
  cases x with
  | invocation x => exact x.leaves_map g kind
  | goto keyword target => rfl
  | literal x => simp [leaves, map]

theorem Statement.leaves_map (x : Statement α flavor) :
    (x.map g).leaves = x.leaves.map (Leaf.map g) := by
  cases x <;> simp [leaves, map, Invocation.leaves_map, Expression.leaves_map]

theorem Attribute.leaves_map (x : Attribute α) : (x.map g).leaves = x.leaves.map (Leaf.map g) := by
  cases x <;> simp [leaves, map]

theorem MainBlock.leaves_map (x : MainBlock α) : (x.map g).leaves = x.leaves.map (Leaf.map g) := by
  simp [leaves, map, flatMap_leaves_map g (Attribute.leaves_map g)]

theorem StateBlock.leaves_map (x : StateBlock α flavor) :
    (x.map g).leaves = x.leaves.map (Leaf.map g) := by
  simp [leaves, map, flatMap_leaves_map g (Statement.leaves_map g)]

theorem Block.leaves_map (x : Block α flavor) : (x.map g).leaves = x.leaves.map (Leaf.map g) := by
  cases x with
  | main x => exact x.leaves_map g
  | state x => exact x.leaves_map g

/-- **The leaves of a quest with other words** are its leaves with the other words. -/
theorem Quest.leaves_map (q : Quest α flavor) : (q.map g).leaves = q.leaves.map (Leaf.map g) :=
  flatMap_leaves_map g (Block.leaves_map g) q.blocks

end QuestScript.Ast
