import QuestScript.Proofs.Text.Lines
import QuestScript.Proofs.Token.Whole

/-! # Where tokens stand in the text

The lexer counts bytes, lines and columns while it reads. A token of a document stands behind the
text that these numbers tell (`exists_before`), and since it stands on one line if the grammar sees
it, its span is that of its characters (`exists_span`). So two tokens cut the text where the first
starts and the last ends (`exists_cut_between`). -/

namespace QuestScript

/-! ### Bytes -/

/-- **The part with fewer bytes is a part of the other.** -/
theorem exists_append_of_byteLength_le {pre post pre' post' : List Char}
    (h : pre ++ post = pre' ++ post') (hle : byteLength pre ≤ byteLength pre') :
    ∃ mid, pre' = pre ++ mid ∧ post = mid ++ post' := by
  refine exists_append_of_eq_nil h fun mid hpre => ?_
  by_contra hne
  have hpos := byteLength_pos hne
  rw [hpre, byteLength_append] at hle
  omega

/-- Number of bytes of `text` before the position. -/
def Position.byteOffsetIn (p : Position) (text : List Char) : Nat :=
  byteLength (text.take (p.offsetIn text))

theorem Position.byteOffsetIn_after (pre rest : List Char) :
    (after pre).byteOffsetIn (pre ++ rest) = byteLength pre := by
  rw [byteOffsetIn, offsetIn_after, List.take_left]

/-! ### Tokens -/

/-- The token's place is the end of the text `before`: its offset is the number of bytes, its line is
one more than the number of line breaks, and its column is the number of characters after the last of
them. -/
structure Token.IsBehind (t : Token) (before : List Char) : Prop where
  offset_eq : t.offset = byteLength before
  line_eq : t.line = before.count '\n' + 1
  column_eq : t.column = lastColumn before

theorem Token.start_le_stop (t : Token) : t.span.start ≤ t.span.stop :=
  Or.inr ⟨rfl, Nat.le_add_right _ _⟩

namespace Token.IsBehind
variable {t : Token} {before : List Char} (h : t.IsBehind before)
include h

theorem start : t.span.start = Position.after before := by
  unfold span Position.after
  rw [h.line_eq, h.column_eq, Nat.add_sub_cancel]

theorem stop (hline : '\n' ∉ t.text.toList) :
    t.span.stop = Position.after (before ++ t.text.toList) := by
  rw [Position.after_append hline, ← h.start]
  rfl

theorem endOffset : t.endOffset = byteLength (before ++ t.text.toList) := by
  rw [Token.endOffset, h.offset_eq, byteLength_append]

end Token.IsBehind

namespace TokenStream
variable {flavor : Flavor} {source : String} {t first last : Token}

theorem isBehind_of_cursor {before : List Char}
    (hoffset : t.offset = (Cursor.start.advance before).offset)
    (hline : t.line = (Cursor.start.advance before).line)
    (hcolumn : t.column = (Cursor.start.advance before).column) : t.IsBehind before := by
  rw [Cursor.advance_start] at hoffset hline hcolumn
  exact ⟨hoffset, hline, hcolumn⟩

/-- **A token of a document stands behind the text before it.** -/
theorem exists_behind (h : t ∈ (ofSource flavor source).document) : ∃ before rest,
    source.toList = before ++ (t.text.toList ++ rest) ∧ t.IsBehind before := by
  rw [document_ofSource] at h
  obtain ⟨earlier, later, h⟩ := List.append_of_mem h
  obtain ⟨ls, l, ms, hlexemes, -, rfl⟩ := placed_eq_append h
  refine ⟨ls.flatMap Lexeme.text, ms.flatMap Lexeme.text, ?_, isBehind_of_cursor rfl rfl rfl⟩
  rw [← Lexeme.flatMap_ofText flavor source.toList, hlexemes, List.flatMap_append,
    List.flatMap_cons, String.toList_ofList]

/-- **Every token stands behind a part of the text**, also the one that marks its end. -/
theorem exists_before (h : t ∈ (ofSource flavor source).tokens) : ∃ before rest,
    source.toList = before ++ rest ∧ t.IsBehind before := by
  rw [tokens_eq_document_append, List.mem_append, List.mem_singleton] at h
  rcases h with h | rfl
  · obtain ⟨before, rest, hcut, hbehind⟩ := exists_behind h
    exact ⟨before, t.text.toList ++ rest, hcut, hbehind⟩
  · exact ⟨source.toList, [], by simp, isBehind_of_cursor rfl rfl rfl⟩

/-- **The span of a token that the grammar sees is that of its characters.** -/
theorem exists_span (h : t ∈ (ofSource flavor source).significant) : ∃ before rest,
    source.toList = before ++ (t.text.toList ++ rest) ∧ t.IsBehind before ∧
      t.span = ⟨Position.after before, Position.after (before ++ t.text.toList)⟩ := by
  obtain ⟨before, rest, hcut, hbehind⟩ := exists_behind (List.mem_filter.mp h).1
  have hspan : t.span = ⟨t.span.start, t.span.stop⟩ := rfl
  rw [hbehind.start, hbehind.stop (newline_notMem h)] at hspan
  exact ⟨before, rest, hcut, hbehind, hspan⟩

/-- **Two tokens cut the text where the first starts and the last ends.** -/
theorem exists_cut_between (hfirst : first ∈ (ofSource flavor source).significant)
    (hlast : last ∈ (ofSource flavor source).significant) (hle : first.offset ≤ last.offset) :
    ∃ pre mid post, source.toList = pre ++ (mid ++ post) ∧
      byteLength pre = first.offset ∧ byteLength (pre ++ mid) = last.endOffset ∧
      first.span.start = Position.after pre ∧ last.span.stop = Position.after (pre ++ mid) := by
  obtain ⟨pre, rest, hcut, hfirst, hfirst_span⟩ := exists_span hfirst
  obtain ⟨pre', post, hcut', hlast, hlast_span⟩ := exists_span hlast
  rw [hfirst.offset_eq, hlast.offset_eq] at hle
  obtain ⟨between, rfl, -⟩ := exists_append_of_byteLength_le (hcut.symm.trans hcut') hle
  refine ⟨pre, between ++ last.text.toList, post, ?_, hfirst.offset_eq.symm, ?_, ?_, ?_⟩
  · rw [hcut']
    simp only [List.append_assoc]
  · rw [hlast.endOffset, List.append_assoc]
  · rw [hfirst_span]
  · rw [hlast_span, List.append_assoc]

/-! ### Unknown text -/

theorem mem_document_of_mem_unknown (h : t ∈ (ofSource flavor source).unknown) :
    t ∈ (ofSource flavor source).document := by
  obtain ⟨hmem, hkind⟩ := List.mem_filter.mp h
  have hkind : t.kind = .unknown := by simpa using hkind
  refine List.mem_filter.mpr ⟨hmem, ?_⟩
  rw [Token.isEnd, hkind]
  rfl

theorem opensComment_of_mem_unknown (h : t ∈ (ofSource flavor source).unknown)
    (hline : '\n' ∈ t.text.toList) : ['/', '*'] <+: t.text.toList := by
  have hmem := mem_document_of_mem_unknown h
  rw [document_ofSource] at hmem
  have hkind : t.kind = .unknown := by simpa using (List.mem_filter.mp h).2
  exact Lexeme.opensComment_of_newline_mem (lexeme_of_mem_placed hmem) hkind hline

/-- **Where a token goes over several lines, its span does not end in the text**: there are not that
many characters on its first line. -/
theorem not_isIn_stop (h : t ∈ (ofSource flavor source).document) (hline : '\n' ∈ t.text.toList) :
    ¬ t.span.stop.IsIn source.toList := by
  obtain ⟨before, rest, hcut, hbehind⟩ := exists_behind h
  intro hin
  obtain ⟨pre, post, hcut', hstop⟩ := Position.isIn_iff.mp hin
  have hle : Position.after before ≤ Position.after pre := by
    rw [← hbehind.start, ← hstop]
    exact Token.start_le_stop t
  obtain ⟨mid, rfl, -⟩ := Position.exists_append_of_le (hcut.symm.trans hcut') hle
  have hend : Position.after (before ++ mid) = ⟨(Position.after before).line,
      (Position.after before).column + t.charLength⟩ := by
    rw [← hstop, ← hbehind.start]
    rfl
  have hmid : '\n' ∉ mid := by
    have hcount := congrArg Position.line hend
    simp only [Position.after, List.count_append] at hcount
    exact List.count_eq_zero.mp (by omega)
  have hlength : mid.length = t.text.toList.length := by
    rw [Position.after_append hmid, Position.mk.injEq] at hend
    exact Nat.add_left_cancel hend.2
  have htext : mid ++ post = t.text.toList ++ rest := by
    rw [hcut, List.append_assoc] at hcut'
    exact (List.append_cancel_left hcut').symm
  rw [(List.append_inj htext hlength).1] at hmid
  exact hmid hline

end TokenStream

end QuestScript
