import QuestScript.Editor.Highlight
import QuestScript.Proofs.Rename.Document
import QuestScript.Proofs.Token.Order

/-! # The numbers of colored names are read back

Colored names are sent as differences of unsigned numbers, so they can be sent only in order. They stand in
order whatever the document looks like (`Analysis.pairwise_highlights`): each is a name of its own and the
names come as in the text. So no difference falls below zero (`Highlight.SortedFrom.encodeFrom?`), and who
adds the differences up again gets back where each name is, how long it is and how it is colored
(`Highlight.SortedFrom.decodeFrom?`). -/

namespace QuestScript

theorem Position.zero_le (p : Position) : (⟨0, 0⟩ : Position) ≤ p := by
  rw [le_iff]
  dsimp only
  omega

namespace Highlight

/-- The characters of the name. -/
def span (h : Highlight) : Span :=
  ⟨⟨h.line, h.column⟩, ⟨h.line, h.column + h.length⟩⟩

/-- The first name ends before the second starts. -/
def Precedes (h k : Highlight) : Prop :=
  h.span.start < k.span.start ∧ h.span.stop ≤ k.span.start

/-! ### Checked differences -/

/-- The difference of two numbers, if the second is not the larger. -/
def difference? (m n : Nat) : Option Nat := if n ≤ m then some (m - n) else none

theorem difference?_eq {m n : Nat} (h : n ≤ m) : difference? m n = some (m - n) := if_pos h

/-- The numbers of colored names after a name at the given line and column, if no larger number has to be
subtracted from a smaller. -/
def encodeFrom? : (line column : Nat) → List Highlight → Option (List Nat)
  | _, _, [] => some []
  | line, column, h :: hs => do
    let lines ← difference? h.line line
    let columns ← if lines = 0 then difference? h.column column else some h.column
    let rest ← encodeFrom? h.line h.column hs
    return lines :: columns :: h.length :: h.kind.index :: h.modifierBits :: rest

/-- The numbers of all colored names of a document, if no larger number has to be subtracted from a
smaller. -/
def encode? (hs : List Highlight) : Option (List Nat) := encodeFrom? 0 0 hs

/-! ### Reading -/

/-- A colored name as its numbers tell it. -/
structure Mark where
  /-- Number of lines above it. -/
  line : Nat
  /-- Number of characters before it on its line. -/
  column : Nat
  /-- Number of its characters. -/
  length : Nat
  /-- The number of its kind. -/
  kind : Nat
  /-- The set of marks on it. -/
  modifiers : Nat
deriving DecidableEq, Repr

/-- What the numbers tell of a colored name. -/
def mark (h : Highlight) : Mark := ⟨h.line, h.column, h.length, h.kind.index, h.modifierBits⟩

/-- The colored names that numbers tell, five for each, after a name at the given line and column. -/
def decodeFrom? : (line column : Nat) → List Nat → Option (List Mark)
  | _, _, [] => some []
  | line, column, lines :: columns :: length :: kind :: modifiers :: rest =>
    let here := if lines = 0 then column + columns else columns
    (decodeFrom? (line + lines) here rest).map (⟨line + lines, here, length, kind, modifiers⟩ :: ·)
  | _, _, _ => none

/-- The colored names that the numbers of a document tell. -/
def decode? (numbers : List Nat) : Option (List Mark) := decodeFrom? 0 0 numbers

/-! ### Names in order -/

variable {line column : Nat} {h : Highlight} {hs : List Highlight}

/-- The names come in order, and none is before the given line and column. -/
structure SortedFrom (line column : Nat) (hs : List Highlight) : Prop where
  start_le : ∀ h ∈ hs, ⟨line, column⟩ ≤ h.span.start
  precedes : hs.Pairwise Precedes

theorem SortedFrom.line_le (hsorted : SortedFrom line column (h :: hs)) : line ≤ h.line := by
  have hle := hsorted.start_le h List.mem_cons_self
  rw [Position.le_iff] at hle
  dsimp only [span] at hle
  omega

theorem SortedFrom.column_le (hsorted : SortedFrom line column (h :: hs)) (hsame : h.line - line = 0) :
    column ≤ h.column := by
  have hle := hsorted.start_le h List.mem_cons_self
  rw [Position.le_iff] at hle
  dsimp only [span] at hle
  omega

theorem SortedFrom.tail (hsorted : SortedFrom line column (h :: hs)) :
    SortedFrom h.line h.column hs := by
  obtain ⟨hfirst, hrest⟩ := List.pairwise_cons.mp hsorted.precedes
  refine ⟨fun k hk => ?_, hrest⟩
  have hlt := (hfirst k hk).1
  rw [Position.lt_iff] at hlt
  exact hlt.imp_right (And.imp_right Nat.le_of_lt)

/-- **Names in order are sent without a difference below zero.** -/
theorem SortedFrom.encodeFrom? (hsorted : SortedFrom line column hs) :
    encodeFrom? line column hs = some (encodeFrom line column hs) := by
  induction hs generalizing line column with
  | nil => rfl
  | cons h hs ih =>
    rw [Highlight.encodeFrom?, difference?_eq hsorted.line_le, ih hsorted.tail, encodeFrom]
    by_cases hsame : h.line - line = 0
    · simp only [if_pos hsame, difference?_eq (hsorted.column_le hsame), Option.bind_eq_bind,
        Option.bind_some, Option.pure_def]
    · simp only [if_neg hsame, Option.bind_eq_bind, Option.bind_some, Option.pure_def]

/-- **The numbers of names in order tell the names.** -/
theorem SortedFrom.decodeFrom? (hsorted : SortedFrom line column hs) :
    decodeFrom? line column (encodeFrom line column hs) = some (hs.map mark) := by
  induction hs generalizing line column with
  | nil => rfl
  | cons h hs ih =>
    have hline : line + (h.line - line) = h.line := Nat.add_sub_cancel' hsorted.line_le
    rw [encodeFrom, Highlight.decodeFrom?, hline]
    by_cases hsame : h.line - line = 0
    · have hcolumn : column + (h.column - column) = h.column :=
        Nat.add_sub_cancel' (hsorted.column_le hsame)
      simp only [if_pos hsame, hcolumn, ih hsorted.tail, Option.map_some, List.map_cons, mark]
    · simp only [if_neg hsame, ih hsorted.tail, Option.map_some, List.map_cons, mark]

end Highlight

namespace Analysis

variable {flavor : Flavor} {source : String} {p : Place} {t : Token} {h : Highlight}

theorem span_of_highlight? {a : Analysis} (hcolor : a.highlight? p t = some h) :
    h.span = t.span ∧ h.length = t.charLength := by
  unfold highlight? at hcolor
  split at hcolor
  · obtain rfl := Option.some.inj hcolor
    exact ⟨rfl, rfl⟩
  · obtain ⟨kind, -, rfl⟩ := Option.map_eq_some_iff.mp hcolor
    exact ⟨rfl, rfl⟩

theorem mem_tokens_of_mem_identifiers {x : Place × Token} (hx : x ∈ (ofSource flavor source).identifiers) :
    x.2 ∈ (TokenStream.ofSource flavor source).tokens := by
  have hx := List.mem_map_of_mem (f := Prod.snd) hx
  rw [identifiers_ofSource] at hx
  exact (List.mem_filter.mp hx).1

/-- **The colored names come in order**, whatever the document looks like, and no two share a character. -/
theorem pairwise_highlights (flavor : Flavor) (source : String) :
    (ofSource flavor source).highlights.Pairwise Highlight.Precedes := by
  have hindex : ((ofSource flavor source).identifiers.map (·.2)).Pairwise (·.index < ·.index) := by
    rw [identifiers_ofSource]
    exact (TokenStream.pairwise_index_tokens flavor source).sublist List.filter_sublist
  rw [highlights, List.pairwise_filterMap]
  refine (List.pairwise_map.mp hindex).imp_of_mem fun {x y} hx hy hlt h hcolor k hcolor' => ?_
  obtain ⟨hspan, -⟩ := span_of_highlight? hcolor
  obtain ⟨hspan', -⟩ := span_of_highlight? hcolor'
  have hx := mem_tokens_of_mem_identifiers hx
  have hy := mem_tokens_of_mem_identifiers hy
  rw [Highlight.Precedes, hspan, hspan']
  exact TokenStream.start_lt_and_stop_le hx hy hlt

/-- **Colored names are sent reversibly.** Whatever the document looks like, each of its colored names has a
character, ends before the next one starts and starts behind it in the order of lines and columns. So their
numbers come about without a larger number subtracted from a smaller, and read five at a time they tell the
line, the column, the length, the kind and the marks of every name, in order. -/
theorem decode_encode_highlights (flavor : Flavor) (source : String) :
    let names := (ofSource flavor source).highlights
    (∀ h ∈ names, 0 < h.length) ∧
      names.Pairwise (fun h k => h.span.start < k.span.start ∧ h.span.stop ≤ k.span.start) ∧
      Highlight.encode? names = some (Highlight.encode names) ∧
      Highlight.decode? (Highlight.encode names) = some (names.map Highlight.mark) := by
  intro names
  have hsorted : Highlight.SortedFrom 0 0 names :=
    ⟨fun _ _ => Position.zero_le _, pairwise_highlights flavor source⟩
  refine ⟨fun h hmem => ?_, hsorted.precedes, hsorted.encodeFrom?, hsorted.decodeFrom?⟩
  obtain ⟨x, hx, hcolor⟩ := List.mem_filterMap.mp hmem
  rw [(span_of_highlight? hcolor).2]
  exact TokenStream.charLength_pos (mem_tokens_of_mem_identifiers hx)

end Analysis

end QuestScript
