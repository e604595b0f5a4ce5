import QuestScript.Text.Position

/-! # Text edits

An edit replaces the text of a span. Several edits are applied from the last to the first, so that
none of them moves the span of one still to come. -/

namespace QuestScript

/-- Number of characters of `text` before line `line` and column `column`. A column past the end of
its line counts as that end, a line past the end of the text as the end of the text. -/
def offsetAt : (line column : Nat) → (text : List Char) → Nat
  | 0, column, text => min column (text.takeWhile (· != '\n')).length
  | _ + 1, _, [] => 0
  | line + 1, column, c :: text =>
    if c = '\n' then offsetAt line column text + 1 else offsetAt (line + 1) column text + 1
termination_by structural _ _ text => text

/-- Number of characters of `text` before the position. -/
def Position.offsetIn (p : Position) (text : List Char) : Nat :=
  offsetAt p.line p.column text

/-- Replace the text of `range` by `newText`. -/
structure TextEdit where
  /-- The text to be replaced. -/
  range : Span
  /-- What takes its place. -/
  newText : String
deriving DecidableEq, Repr

namespace TextEdit

/-- Put `text` at a position. -/
def insert (p : Position) (text : String) : TextEdit := ⟨⟨p, p⟩, text⟩

/-- Remove the text of a span. -/
def delete (range : Span) : TextEdit := ⟨range, ""⟩

/-- The text after one edit. A span that ends before its start is empty. -/
def apply (text : List Char) (edit : TextEdit) : List Char :=
  let start := edit.range.start.offsetIn text
  let stop := max start (edit.range.stop.offsetIn text)
  text.take start ++ edit.newText.toList ++ text.drop stop

/-- The edits from the last start to the first; those with one start keep their order. -/
def backToFront (edits : List TextEdit) : List TextEdit :=
  edits.mergeSort fun a b => decide (b.range.start ≤ a.range.start)

/-- The text after all edits. -/
def applyAll (source : String) (edits : List TextEdit) : String :=
  String.ofList ((backToFront edits).foldl apply source.toList)

end TextEdit

end QuestScript
