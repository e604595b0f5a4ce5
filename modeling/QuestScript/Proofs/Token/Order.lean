import QuestScript.Proofs.Token.Span

/-! # Tokens in order

The tokens of a document are numbered by their place in the stream (`get?_index`). What comes later
starts where the earlier ends or behind it (`endOffset_le`), so its line is not above, and on one line
its column is not before the earlier one's end (`line_le_and_column_le`, and `start_lt_and_stop_le` for their
spans). No place of the text is left out: at each some token starts or goes on (`exists_covering`). -/

namespace QuestScript.TokenStream

variable {flavor : Flavor} {source : String} {t u : Token}

/-! ### Numbers -/

theorem index_of_getElem? {i : Nat} (h : (ofSource flavor source).tokens[i]? = some t) :
    t.index = i := by
  have hlength : i < (ofSource flavor source).tokens.length := (List.getElem?_eq_some_iff.mp h).1
  have hindex : ((ofSource flavor source).tokens.map (·.index))[i]? = some t.index := by
    rw [List.getElem?_map, h]
    rfl
  rw [map_index_tokens, List.getElem?_range' hlength] at hindex
  simpa using (Option.some.inj hindex).symm

/-- **A token stands at its index.** -/
theorem get?_index (h : t ∈ (ofSource flavor source).tokens) :
    (ofSource flavor source).get? t.index = some t := by
  obtain ⟨i, hi⟩ := List.mem_iff_getElem?.mp h
  rw [get?, index_of_getElem? hi, hi]

theorem eq_of_index_eq (ht : t ∈ (ofSource flavor source).tokens)
    (hu : u ∈ (ofSource flavor source).tokens) (h : t.index = u.index) : t = u := by
  have hsame : some t = some u := by rw [← get?_index ht, ← get?_index hu, h]
  exact Option.some.inj hsame

theorem pairwise_index_tokens (flavor : Flavor) (source : String) :
    (ofSource flavor source).tokens.Pairwise (·.index < ·.index) := by
  have hsorted : (List.range' 0 (ofSource flavor source).tokens.length).Pairwise (· < ·) :=
    List.pairwise_lt_range' 1
  rw [← map_index_tokens] at hsorted
  exact List.pairwise_map.mp hsorted

theorem index_endToken (flavor : Flavor) (source : String) : (endToken (Cursor.start.advance source.toList)
    (Lexeme.ofText flavor source.toList).length).index = (ofSource flavor source).length - 1 := by
  rw [length, tokens_eq_document_append, List.length_append, document_ofSource, length_placed]
  rfl

/-! ### Bytes, lines and columns -/

theorem pairwise_endOffset_placed (p : Cursor) (index : Nat) (ls : List Lexeme) :
    (placed p index ls).Pairwise fun t u => t.endOffset ≤ u.offset := by
  induction ls generalizing p index with
  | nil => exact List.Pairwise.nil
  | cons l ls ih =>
    rw [placed, List.pairwise_cons]
    refine ⟨fun u hu => ?_, ih _ _⟩
    have hu := (le_offset_placed hu).1
    rw [Cursor.offset_advance] at hu
    rw [Token.endOffset, String.toList_ofList]
    exact hu

/-- **A later token starts where the earlier ends, or behind it.** -/
theorem pairwise_endOffset_tokens (flavor : Flavor) (source : String) :
    (ofSource flavor source).tokens.Pairwise fun t u => t.endOffset ≤ u.offset := by
  rw [tokens_ofSource, List.pairwise_append]
  refine ⟨pairwise_endOffset_placed _ _ _, List.pairwise_singleton _ _, fun t ht u hu => ?_⟩
  have hle := (le_offset_placed ht).2
  rw [Lexeme.flatMap_ofText] at hle
  rw [List.mem_singleton.mp hu]
  exact hle

theorem endOffset_le (ht : t ∈ (ofSource flavor source).tokens)
    (hu : u ∈ (ofSource flavor source).tokens) (h : t.index < u.index) : t.endOffset ≤ u.offset := by
  obtain ⟨i, hi⟩ := List.mem_iff_getElem.mp ht
  obtain ⟨j, hj⟩ := List.mem_iff_getElem.mp hu
  obtain ⟨hi, rfl⟩ := hi
  obtain ⟨hj, rfl⟩ := hj
  have hsorted := List.pairwise_iff_getElem.mp (pairwise_index_tokens flavor source)
  have hij : i < j := by
    rcases Nat.lt_trichotomy i j with hlt | heq | hgt
    · exact hlt
    · subst heq
      omega
    · have := hsorted j i hj hi hgt
      omega
  exact List.pairwise_iff_getElem.mp (pairwise_endOffset_tokens flavor source) i j hi hj hij

theorem mem_document_of_index_lt (ht : t ∈ (ofSource flavor source).tokens)
    (hu : u ∈ (ofSource flavor source).tokens) (h : t.index < u.index) :
    t ∈ (ofSource flavor source).document := by
  have hu := List.mem_map_of_mem (f := (·.index)) hu
  rw [map_index_tokens, List.mem_range'] at hu
  obtain ⟨j, hj, heq⟩ := hu
  rw [tokens_eq_document_append, List.mem_append, List.mem_singleton] at ht
  rcases ht with ht | rfl
  · exact ht
  · have hlast := index_endToken flavor source
    rw [length] at hlast
    omega

/-- **Of two tokens the later is not above the earlier**, and on one line it starts where the earlier
ends, or behind it. -/
theorem line_le_and_column_le (ht : t ∈ (ofSource flavor source).tokens)
    (hu : u ∈ (ofSource flavor source).tokens) (h : t.index < u.index) :
    t.line ≤ u.line ∧ (t.line = u.line → t.column + t.charLength ≤ u.column) := by
  obtain ⟨before, rest, hcut, hbehind⟩ := exists_behind (mem_document_of_index_lt ht hu h)
  obtain ⟨before', rest', hcut', hbehind'⟩ := exists_before hu
  have hle := endOffset_le ht hu h
  rw [hbehind.endOffset, hbehind'.offset_eq] at hle
  rw [← List.append_assoc] at hcut
  obtain ⟨mid, rfl, -⟩ := exists_append_of_byteLength_le (hcut.symm.trans hcut') hle
  have hline := hbehind.line_eq
  have hline' := hbehind'.line_eq
  rw [List.append_assoc, List.count_append] at hline'
  refine ⟨by omega, fun heq => ?_⟩
  have hbetween : '\n' ∉ t.text.toList ++ mid := List.count_eq_zero.mp (by omega)
  have hcolumn : lastColumn (before ++ (t.text.toList ++ mid)) =
      lastColumn before + (t.text.toList ++ mid).length :=
    congrArg Position.column (Position.after_append hbetween)
  rw [hbehind.column_eq, hbehind'.column_eq, List.append_assoc, hcolumn, List.length_append,
    Token.charLength]
  omega

theorem charLength_pos (h : t ∈ (ofSource flavor source).tokens) : 0 < t.charLength := by
  rw [tokens_eq_document_append, List.mem_append, List.mem_singleton] at h
  rcases h with h | rfl
  · rw [document_ofSource] at h
    exact List.length_pos_iff.mpr (Lexeme.text_ne_nil (lexeme_of_mem_placed h))
  · have hend : 0 < endText.toList.length := by decide
    exact hend

theorem line_pos (h : t ∈ (ofSource flavor source).tokens) : 0 < t.line := by
  obtain ⟨before, -, -, hbehind⟩ := exists_before h
  have hline := hbehind.line_eq
  omega

/-- **Of two tokens the later starts behind the start of the earlier**, and not before its end. -/
theorem start_lt_and_stop_le (ht : t ∈ (ofSource flavor source).tokens)
    (hu : u ∈ (ofSource flavor source).tokens) (h : t.index < u.index) :
    t.span.start < u.span.start ∧ t.span.stop ≤ u.span.start := by
  obtain ⟨hline, hcolumn⟩ := line_le_and_column_le ht hu h
  have hpos := line_pos ht
  have hlength := charLength_pos ht
  rw [Position.lt_iff, Position.le_iff]
  dsimp only [Token.span]
  omega

/-! ### Every place of the text -/

theorem exists_covering_placed {p : Cursor} {index : Nat} {ls : List Lexeme} {o : Nat}
    (hp : p.offset ≤ o) (ho : o < (p.advance (ls.flatMap Lexeme.text)).offset) :
    ∃ t ∈ placed p index ls, t.offset ≤ o ∧ o < t.endOffset := by
  induction ls generalizing p index with
  | nil => exact absurd ho (Nat.not_lt.mpr hp)
  | cons l ls ih =>
    rw [placed]
    rcases Nat.lt_or_ge o (p.offset + byteLength l.text) with hlt | hge
    · refine ⟨_, List.mem_cons_self, hp, ?_⟩
      rwa [Token.endOffset, String.toList_ofList]
    · rw [List.flatMap_cons, Cursor.advance_append] at ho
      rw [← Cursor.offset_advance] at hge
      obtain ⟨t, ht, h⟩ := ih hge ho
      exact ⟨t, List.mem_cons_of_mem _ ht, h⟩

/-- **At each place of the text some token starts or goes on**; at its end it is the one that marks it. -/
theorem exists_covering (flavor : Flavor) {o : Nat} (ho : o ≤ byteLength source.toList) :
    ∃ t ∈ (ofSource flavor source).tokens, t.offset ≤ o ∧ o < t.endOffset := by
  have htotal : (Cursor.start.advance source.toList).offset = byteLength source.toList :=
    (Cursor.offset_advance _ _).trans (Nat.zero_add _)
  rw [tokens_ofSource]
  rcases Nat.lt_or_ge o (byteLength source.toList) with hlt | hge
  · have hlt' : o < (Cursor.start.advance
        ((Lexeme.ofText flavor source.toList).flatMap Lexeme.text)).offset := by
      rwa [Lexeme.flatMap_ofText, htotal]
    obtain ⟨t, ht, h⟩ := exists_covering_placed (Nat.zero_le o) hlt'
    exact ⟨t, List.mem_append_left _ ht, h⟩
  · refine ⟨_, List.mem_append_right _ (List.mem_singleton_self _), htotal.trans_le hge, ?_⟩
    have hend : 0 < byteLength endText.toList := by decide
    change o < (Cursor.start.advance source.toList).offset + byteLength endText.toList
    omega

end QuestScript.TokenStream
