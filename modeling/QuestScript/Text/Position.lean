/-! # Positions and spans

Editors address a document by line and column, both counted from zero, columns in characters.
Positions are ordered as they stand in the text. -/

namespace QuestScript

/-- A place between two characters of a document. -/
structure Position where
  /-- Number of lines above. -/
  line : Nat
  /-- Number of characters before it on its line. -/
  column : Nat
deriving DecidableEq, Repr, Inhabited

namespace Position

/-- Text order: the line decides, then the column. -/
instance : LE Position where
  le a b := a.line < b.line ∨ a.line = b.line ∧ a.column ≤ b.column

instance : LT Position where
  lt a b := a.line < b.line ∨ a.line = b.line ∧ a.column < b.column

theorem le_iff {a b : Position} : a ≤ b ↔ a.line < b.line ∨ a.line = b.line ∧ a.column ≤ b.column :=
  Iff.rfl

theorem lt_iff {a b : Position} : a < b ↔ a.line < b.line ∨ a.line = b.line ∧ a.column < b.column :=
  Iff.rfl

instance (a b : Position) : Decidable (a ≤ b) :=
  decidable_of_iff _ le_iff.symm

instance (a b : Position) : Decidable (a < b) :=
  decidable_of_iff _ lt_iff.symm

theorem le_refl (a : Position) : a ≤ a := le_iff.mpr (.inr ⟨rfl, Nat.le_refl _⟩)

theorem le_total (a b : Position) : a ≤ b ∨ b ≤ a := by
  simp only [le_iff]; omega

theorem le_trans {a b c : Position} (hab : a ≤ b) (hbc : b ≤ c) : a ≤ c := by
  simp only [le_iff] at *; omega

end Position

/-- A stretch of text from `start` to `stop`. -/
structure Span where
  /-- Where the stretch begins. -/
  start : Position
  /-- Where it ends. -/
  stop : Position
deriving DecidableEq, Repr, Inhabited

namespace Span

/-- The span lies around `p`, its two ends included. -/
def contains (s : Span) (p : Position) : Bool :=
  decide (s.start ≤ p) && decide (p ≤ s.stop)

/-- The spans share at least one position, their ends included. -/
def touches (s t : Span) : Bool :=
  decide (s.start ≤ t.stop) && decide (t.start ≤ s.stop)

end Span

end QuestScript
