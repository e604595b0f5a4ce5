import QuestScript.Proofs.Text.Edit

/-! # The positions of a text

A position belongs to a text if its line exists and its column is at most the length of that line
(`Position.IsIn`). These are the ends of the parts of the text (`isIn_iff`), and their order is that
of the parts (`exists_append_of_le`). So a span between two positions of a text cuts it in three
(`Span.liesIn_iff`). -/

namespace QuestScript

theorem exists_append_of_eq_nil {pre post pre' post' : List Char} (h : pre ++ post = pre' ++ post')
    (hnil : ∀ mid, pre = pre' ++ mid → mid = []) : ∃ mid, pre' = pre ++ mid ∧ post = mid ++ post' := by
  rcases List.append_eq_append_iff.mp h with ⟨mid, h⟩ | ⟨mid, hpre, hpost⟩
  · exact ⟨mid, h⟩
  · obtain rfl := hnil mid hpre
    exact ⟨[], by simpa using hpre.symm, by simpa using hpost.symm⟩

namespace Position

/-- The position belongs to the text: the line exists and has at least as many characters as stand
before the position. -/
def IsIn (p : Position) (text : List Char) : Prop :=
  ∃ line ∈ (text.splitOn '\n')[p.line]?, p.column ≤ line.length

instance (p : Position) (text : List Char) : Decidable (p.IsIn text) :=
  inferInstanceAs (Decidable (∃ line ∈ (text.splitOn '\n')[p.line]?, p.column ≤ line.length))

theorem isIn_nil {p : Position} : p.IsIn [] ↔ p = ⟨0, 0⟩ := by
  obtain ⟨line, column⟩ := p
  cases line <;> simp [IsIn]

theorem isIn_newline_cons {p : Position} {text : List Char} :
    p.IsIn ('\n' :: text) ↔ p = ⟨0, 0⟩ ∨ ∃ q : Position, q.IsIn text ∧ p = q.behind '\n' := by
  obtain ⟨line, column⟩ := p
  have hlines : ('\n' :: text).splitOn '\n' = [] :: text.splitOn '\n' := by
    simp [List.splitOn, List.splitOnP_cons_eq_if_modifyHead]
  have hbehind : ∀ q : Position, q.behind '\n' = ⟨q.line + 1, q.column⟩ := fun q => if_pos rfl
  unfold IsIn
  rw [hlines]
  cases line with
  | zero => simp [hbehind]
  | succ line =>
    constructor
    · intro h
      exact Or.inr ⟨⟨line, column⟩, h, rfl⟩
    · rintro (h | ⟨q, hq, h⟩)
      · simp at h
      · rw [hbehind, mk.injEq, Nat.add_right_cancel_iff] at h
        rw [List.getElem?_cons_succ, h.1, h.2]
        exact hq

theorem isIn_char_cons {p : Position} {c : Char} {text : List Char} (hc : c ≠ '\n') :
    p.IsIn (c :: text) ↔ p = ⟨0, 0⟩ ∨ ∃ q : Position, q.IsIn text ∧ p = q.behind c := by
  obtain ⟨line, column⟩ := p
  obtain ⟨first, others, hsplit⟩ := List.exists_cons_of_ne_nil (List.splitOnP_ne_nil (· == '\n') text)
  have hsplit : text.splitOn '\n' = first :: others := hsplit
  have hlines : (c :: text).splitOn '\n' = (c :: first) :: others := by
    have hne : (c == '\n') = false := beq_false_of_ne hc
    rw [List.splitOn, List.splitOnP_cons_eq_if_modifyHead, hne, if_neg Bool.false_ne_true,
      ← List.splitOn, hsplit, List.modifyHead_cons]
  have hbehind : ∀ q : Position, q.behind c = if q.line = 0 then ⟨0, q.column + 1⟩ else q :=
    fun q => if_neg hc
  unfold IsIn
  rw [hlines, hsplit]
  cases line with
  | zero =>
    cases column with
    | zero => simp
    | succ column =>
      constructor
      · intro h
        have hcolumn : column ≤ first.length := by simpa using h
        exact Or.inr ⟨⟨0, column⟩, by simpa using hcolumn, by rw [hbehind, if_pos rfl]⟩
      · rintro (h | ⟨⟨line, n⟩, hq, h⟩)
        · simp at h
        · rw [hbehind] at h
          split_ifs at h with hzero
          · obtain rfl : line = 0 := hzero
            obtain rfl : column = n := by simpa using h
            simpa using hq
          · exact absurd (congrArg Position.line h).symm hzero
  | succ line =>
    constructor
    · intro h
      exact Or.inr ⟨⟨line + 1, column⟩, h, by rw [hbehind, if_neg (Nat.succ_ne_zero line)]⟩
    · rintro (h | ⟨q, hq, h⟩)
      · simp at h
      · rw [hbehind] at h
        split_ifs at h with hzero
        · simp at h
        · subst h
          exact hq

theorem isIn_cons {p : Position} {c : Char} {text : List Char} :
    p.IsIn (c :: text) ↔ p = ⟨0, 0⟩ ∨ ∃ q : Position, q.IsIn text ∧ p = q.behind c := by
  rcases eq_or_ne c '\n' with rfl | hc
  · exact isIn_newline_cons
  · exact isIn_char_cons hc

/-- **The positions of a text are the ends of its parts.** -/
theorem isIn_iff {p : Position} {text : List Char} :
    p.IsIn text ↔ ∃ pre post, text = pre ++ post ∧ p = after pre := by
  induction text generalizing p with
  | nil =>
    rw [isIn_nil]
    constructor
    · intro h
      exact ⟨[], [], rfl, h⟩
    · rintro ⟨pre, post, h, rfl⟩
      rw [(List.append_eq_nil_iff.mp h.symm).1, after_nil]
  | cons c text ih =>
    rw [isIn_cons]
    constructor
    · rintro (rfl | ⟨q, hq, rfl⟩)
      · exact ⟨[], c :: text, rfl, rfl⟩
      · obtain ⟨pre, post, rfl, rfl⟩ := ih.mp hq
        exact ⟨c :: pre, post, rfl, (after_cons c pre).symm⟩
    · rintro ⟨pre, post, h, rfl⟩
      cases pre with
      | nil => exact Or.inl rfl
      | cons d pre =>
        rw [List.cons_append] at h
        obtain ⟨rfl, rfl⟩ := List.cons.inj h
        exact Or.inr ⟨after pre, ih.mpr ⟨pre, post, rfl, rfl⟩, after_cons c pre⟩

theorem isIn_after (pre post : List Char) : (after pre).IsIn (pre ++ post) :=
  isIn_iff.mpr ⟨pre, post, rfl, rfl⟩

theorem after_le_append (pre text : List Char) : after pre ≤ after (pre ++ text) := by
  rcases eq_or_ne text [] with rfl | h
  · rw [List.append_nil, le_iff]
    omega
  · exact le_of_lt (lt_after_append pre h)

/-- **The part that ends first is a part of the other.** -/
theorem exists_append_of_le {pre post pre' post' : List Char} (h : pre ++ post = pre' ++ post')
    (hle : after pre ≤ after pre') : ∃ mid, pre' = pre ++ mid ∧ post = mid ++ post' := by
  refine exists_append_of_eq_nil h fun mid hpre => ?_
  by_contra hne
  have hlt := lt_after_append pre' hne
  rw [← hpre] at hlt
  exact ne_of_lt (lt_of_lt_of_le hlt hle) rfl

end Position

/-! ### Spans -/

/-- The span is a stretch of the text. -/
structure Span.LiesIn (s : Span) (text : List Char) : Prop where
  ordered : s.start ≤ s.stop
  start_isIn : s.start.IsIn text
  stop_isIn : s.stop.IsIn text

instance (s : Span) (text : List Char) : Decidable (s.LiesIn text) :=
  decidable_of_iff (s.start ≤ s.stop ∧ s.start.IsIn text ∧ s.stop.IsIn text)
    ⟨fun h => ⟨h.1, h.2.1, h.2.2⟩, fun h => ⟨h.ordered, h.start_isIn, h.stop_isIn⟩⟩

namespace Span

/-- **A stretch of a text cuts it in three.** -/
theorem liesIn_iff {s : Span} {text : List Char} : s.LiesIn text ↔ ∃ pre mid post,
    text = pre ++ (mid ++ post) ∧ s = ⟨Position.after pre, Position.after (pre ++ mid)⟩ := by
  constructor
  · rintro ⟨hle, hstart, hstop⟩
    obtain ⟨start, stop⟩ := s
    obtain ⟨pre, post, rfl, hpre⟩ := Position.isIn_iff.mp hstart
    obtain ⟨pre', post', hsplit, hpre'⟩ := Position.isIn_iff.mp hstop
    dsimp only at hle hpre hpre'
    subst hpre hpre'
    obtain ⟨mid, rfl, rfl⟩ := Position.exists_append_of_le hsplit hle
    exact ⟨pre, mid, post', rfl, rfl⟩
  · rintro ⟨pre, mid, post, rfl, rfl⟩
    refine ⟨Position.after_le_append pre mid, Position.isIn_after pre _, ?_⟩
    rw [← List.append_assoc]
    exact Position.isIn_after (pre ++ mid) post

end Span

end QuestScript
