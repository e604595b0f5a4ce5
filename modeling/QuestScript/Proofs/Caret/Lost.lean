import QuestScript.Proofs.Caret.Scan

/-! # Carets for which nothing is found

A caret at a position of the text is at a token if and only if it is on the token's line and its place is in the
token, the two ends included (`Caret.isIn_iff_offset`). Every place is in a token, but a token is only looked for
on the line on which it starts. So a caret is lost in the later lines of a token that goes over several lines,
which is a hidden one, and nowhere else behind the first token that the grammar sees
(`Parse.resolve_covers_and_eq_none_iff`). -/

namespace QuestScript

theorem byteLength_le_iff {s t text : List Char} (hs : s <+: text) (ht : t <+: text) :
    byteLength s ≤ byteLength t ↔ s.length ≤ t.length := by
  obtain ⟨s', rfl⟩ := hs
  obtain ⟨t', htext⟩ := ht
  constructor
  · intro hle
    obtain ⟨mid, rfl, -⟩ := exists_append_of_byteLength_le htext.symm hle
    exact List.length_append ▸ Nat.le_add_right _ _
  · intro hle
    obtain ⟨mid, rfl⟩ := List.prefix_of_prefix_length_le (List.prefix_append s s') ⟨t', htext⟩ hle
    exact byteLength_append s mid ▸ Nat.le_add_right _ _

namespace TokenStream
variable {flavor : Flavor} {source : String} {t : Token}

/-- The text of a token is what the document goes on with where the token starts. The token that marks the end has
a text of its own, but nothing follows there. -/
theorem exists_text (h : t ∈ (ofSource flavor source).tokens) : ∃ before rest,
    source.toList = before ++ rest ∧ t.IsBehind before ∧ (t.text.toList <+: rest ∨ rest = []) := by
  rw [tokens_eq_document_append, List.mem_append, List.mem_singleton] at h
  rcases h with h | rfl
  · obtain ⟨before, rest, hcut, hbehind⟩ := exists_behind h
    exact ⟨before, t.text.toList ++ rest, hcut, hbehind, Or.inl (List.prefix_append _ _)⟩
  · exact ⟨source.toList, [], by simp, isBehind_of_cursor rfl rfl rfl, Or.inr rfl⟩

theorem isHidden_of_newline_mem (h : t ∈ (ofSource flavor source).tokens)
    (hline : '\n' ∈ t.text.toList) : t.isHidden = true := by
  rw [tokens_eq_document_append, List.mem_append, List.mem_singleton] at h
  rcases h with h | rfl
  · by_contra hvisible
    have hsignificant : t ∈ (ofSource flavor source).significant :=
      List.mem_filter.mpr ⟨h, by simp [Token.isSignificant, hvisible]⟩
    exact newline_notMem hsignificant hline
  · have hend : '\n' ∉ endText.toList := by decide
    exact absurd hline hend

end TokenStream

namespace Caret
variable {flavor : Flavor} {source : String} {t : Token} {pre post before rest mid : List Char}

theorem line_ofPosition_after (pre : List Char) :
    (ofPosition (Position.after pre)).line = pre.count '\n' + 1 := rfl

theorem column_ofPosition_after (pre : List Char) :
    (ofPosition (Position.after pre)).column = lastColumn pre := rfl

theorem line_eq_iff (h : t.IsBehind before) :
    t.line = (ofPosition (Position.after (before ++ mid))).line ↔ '\n' ∉ mid := by
  rw [h.line_eq, line_ofPosition_after, List.count_append, ← List.count_eq_zero]
  omega

/-- On the line of a token, a caret behind its start is at the token if it is not too far behind. -/
theorem isIn_append_iff (h : t.IsBehind before) (hmid : '\n' ∉ mid)
    (htext : t.text.toList <+: mid ++ post ∨ mid ++ post = []) :
    (ofPosition (Position.after (before ++ mid))).isIn t = true ↔
      byteLength (before ++ mid) ≤ t.endOffset := by
  have hcolumn : lastColumn (before ++ mid) = lastColumn before + mid.length :=
    congrArg Position.column (Position.after_append hmid)
  have hlength : byteLength mid ≤ byteLength t.text.toList ↔ mid.length ≤ t.charLength := by
    rcases htext with htext | hnil
    · exact byteLength_le_iff (List.prefix_append mid post) htext
    · obtain ⟨rfl, -⟩ := List.append_eq_nil_iff.mp hnil
      simp
  rw [isIn_iff, column_ofPosition_after, hcolumn, h.column_eq, Token.endOffset, h.offset_eq,
    byteLength_append]
  have hline : t.line = (ofPosition (Position.after (before ++ mid))).line := (line_eq_iff h).mpr hmid
  constructor
  · rintro ⟨-, -, hle⟩
    have hle := hlength.mpr (by omega)
    omega
  · intro hle
    have hle := hlength.mp (by omega)
    exact ⟨hline, by omega, by omega⟩

/-- **A caret is at the tokens on whose first line it is and in which its place is.** -/
theorem isIn_iff_offset (ht : t ∈ (TokenStream.ofSource flavor source).tokens)
    (hcut : source.toList = pre ++ post) : (ofPosition (Position.after pre)).isIn t = true ↔
      t.line = (ofPosition (Position.after pre)).line ∧
        t.offset ≤ byteLength pre ∧ byteLength pre ≤ t.endOffset := by
  obtain ⟨before, rest, hcut', hbehind, htext⟩ := TokenStream.exists_text ht
  constructor
  · intro hin
    obtain ⟨hline, hcolumn, -⟩ := isIn_iff.mp hin
    rw [hbehind.line_eq, line_ofPosition_after] at hline
    rw [hbehind.column_eq] at hcolumn
    have hle : Position.after before ≤ Position.after pre :=
      Or.inr ⟨Nat.succ_injective hline, hcolumn⟩
    obtain ⟨mid, rfl, rfl⟩ := Position.exists_append_of_le (hcut'.symm.trans hcut) hle
    have hmid : '\n' ∉ mid := by
      rw [List.count_append] at hline
      exact List.count_eq_zero.mp (by omega)
    refine ⟨(line_eq_iff hbehind).mpr hmid, ?_, (isIn_append_iff hbehind hmid htext).mp hin⟩
    rw [hbehind.offset_eq, byteLength_append]
    exact Nat.le_add_right _ _
  · rintro ⟨hline, hle, hend⟩
    rw [hbehind.offset_eq] at hle
    obtain ⟨mid, rfl, rfl⟩ := exists_append_of_byteLength_le (hcut'.symm.trans hcut) hle
    exact (isIn_append_iff hbehind ((line_eq_iff hbehind).mp hline) htext).mpr hend

/-- A token in which the place of a caret is, and which is not on the caret's line, is hidden and starts further
up. -/
theorem hidden_of_line_ne (ht : t ∈ (TokenStream.ofSource flavor source).tokens)
    (hcut : source.toList = pre ++ post)
    (hline : t.line ≠ (ofPosition (Position.after pre)).line) (hle : t.offset ≤ byteLength pre)
    (hlt : byteLength pre < t.endOffset) : t.isHidden = true ∧
      t.line < (ofPosition (Position.after pre)).line ∧ t.offset < byteLength pre := by
  obtain ⟨before, rest, hcut', hbehind, htext⟩ := TokenStream.exists_text ht
  rw [hbehind.offset_eq] at hle
  obtain ⟨mid, rfl, rfl⟩ := exists_append_of_byteLength_le (hcut'.symm.trans hcut) hle
  have hmid : '\n' ∈ mid := not_not.mp fun hmid => hline ((line_eq_iff hbehind).mpr hmid)
  refine ⟨?_, ?_, ?_⟩
  · have htext : mid <+: t.text.toList := by
      rcases htext with ⟨tail, htext⟩ | hnil
      · have hbytes : byteLength mid ≤ byteLength t.text.toList := by
          rw [hbehind.endOffset, byteLength_append, byteLength_append] at hlt
          omega
        obtain ⟨more, htoken, -⟩ := exists_append_of_byteLength_le htext.symm hbytes
        exact htoken ▸ List.prefix_append mid more
      · rw [(List.append_eq_nil_iff.mp hnil).1]
        exact List.nil_prefix
    exact TokenStream.isHidden_of_newline_mem ht (htext.subset hmid)
  · rw [hbehind.line_eq, line_ofPosition_after, List.count_append]
    have hcount := List.count_pos_iff.mpr hmid
    omega
  · rw [hbehind.offset_eq, byteLength_append]
    have hpos := byteLength_pos (List.ne_nil_of_mem hmid)
    omega

end Caret

namespace Parse
variable {flavor : Flavor} {source : String} {c : Caret} {hit : CaretHit}

theorem exists_isIn_of_resolve (h : (parse flavor source).resolve c = some hit) :
    ∃ t ∈ (parse flavor source).stream.tokens, hit.index = t.index ∧ c.isIn t = true := by
  have hanswers := resolve_answers flavor source c
  rw [h] at hanswers
  cases hanswers with
  | @seen s place hfirst _ _ =>
    exact ⟨s, TokenStream.mem_tokens_of_mem_significant hfirst.mem, rfl, hfirst.isIn⟩
  | @unseen u place _ hfirst _ =>
    exact ⟨u, (tokensIn_sublist _ _).subset hfirst.mem, rfl, hfirst.isIn⟩

theorem isIn_eq_false_of_resolve (h : (parse flavor source).resolve c = none) :
    ∀ u ∈ (parse flavor source).tokensIn (parse flavor source).tree, c.isIn u = false := by
  have hanswers := resolve_answers flavor source c
  rw [h] at hanswers
  cases hanswers with
  | nothing hno => exact hno

/-- A token that goes on at or behind the start of the first that the grammar sees is searched. -/
theorem mem_tokensIn_of_le {t first : Token} {o : Nat} (ht : t ∈ (parse flavor source).stream.tokens)
    (hfirst : first ∈ (parse flavor source).stream.significant) (hle : first.offset ≤ o)
    (ho : o < t.endOffset) :
    t ∈ (parse flavor source).tokensIn (parse flavor source).tree := by
  refine (mem_tokensIn_tree ht).mpr (Or.inr ⟨first, hfirst, ?_⟩)
  by_contra hlt
  have hbefore := TokenStream.endOffset_le ht (TokenStream.mem_tokens_of_mem_significant hfirst)
    (Nat.lt_of_not_le hlt)
  omega

/-- **A caret is lost just within the later lines of a token.** Let a position of the text be at or behind the
start of the first token that the grammar sees. What is found there is a token in which the place is, its two ends
included. Nothing is found there if and only if the place is inside a hidden token that starts on a line
further up. -/
theorem resolve_covers_and_eq_none_iff (flavor : Flavor) (source : String) (position : Position) (first : Token)
    (hposition : position.IsIn source.toList)
    (hfirst : (TokenStream.ofSource flavor source).firstMeaningful? = some first)
    (hle : first.offset ≤ position.byteOffsetIn source.toList) :
    let p := parse flavor source
    let c := Caret.ofPosition position
    let o := position.byteOffsetIn source.toList
    (∀ hit, p.resolve c = some hit → ∃ t, p.stream.get? hit.index = some t ∧
      t.offset ≤ o ∧ o ≤ t.endOffset) ∧
    (p.resolve c = none ↔ ∃ t ∈ p.stream.tokens, t.isHidden = true ∧ t.line < c.line ∧
      t.offset < o ∧ o < t.endOffset) := by
  intro p c o
  obtain ⟨pre, post, hcut, rfl⟩ := Position.isIn_iff.mp hposition
  have ho : o = byteLength pre := by
    change (Position.after pre).byteOffsetIn source.toList = _
    rw [hcut, Position.byteOffsetIn_after]
  have htouch : ∀ t ∈ p.stream.tokens, c.isIn t = true ↔
      t.line = c.line ∧ t.offset ≤ o ∧ o ≤ t.endOffset := fun t ht => by
    rw [ho]
    exact Caret.isIn_iff_offset ht hcut
  refine ⟨fun hit hhit => ?_, fun hnone => ?_, ?_⟩
  · obtain ⟨t, ht, hindex, hin⟩ := exists_isIn_of_resolve hhit
    exact ⟨t, hindex ▸ TokenStream.get?_index ht, ((htouch t ht).mp hin).2⟩
  · have htotal : o ≤ byteLength source.toList := by
      rw [ho, hcut, byteLength_append]
      exact Nat.le_add_right _ _
    obtain ⟨t, ht, hstart, hend⟩ := TokenStream.exists_covering flavor htotal
    have hsearched := mem_tokensIn_of_le ht (List.mem_of_mem_head? hfirst) hle hend
    have hline : t.line ≠ c.line := fun hline => by
      have hin := (htouch t ht).mpr ⟨hline, hstart, hend.le⟩
      rw [isIn_eq_false_of_resolve hnone t hsearched] at hin
      cases hin
    obtain ⟨hhidden, habove, hinside⟩ :=
      Caret.hidden_of_line_ne ht hcut hline (ho ▸ hstart) (ho ▸ hend)
    exact ⟨t, ht, hhidden, habove, ho ▸ hinside, hend⟩
  · rintro ⟨t, ht, -, habove, hinside, hend⟩
    cases hresult : p.resolve c with
    | none => rfl
    | some hit =>
      -- A token that is found has the place in it, so it is the token that the place is inside.
      obtain ⟨u, hu, -, hin⟩ := exists_isIn_of_resolve hresult
      obtain ⟨hline, hustart, huend⟩ := (htouch u hu).mp hin
      rcases Nat.lt_trichotomy t.index u.index with hlt | heq | hgt
      · have hbehind := TokenStream.endOffset_le ht hu hlt
        omega
      · rw [TokenStream.eq_of_index_eq ht hu heq] at habove
        omega
      · have hbehind := TokenStream.endOffset_le hu ht hgt
        omega

/-- In the indentation of a line nothing is found, so the place is inside a hidden token from further up. -/
theorem resolve_covers_indentation :
    let source := "main\n  \x7b \x7d"
    let position : Position := ⟨1, 1⟩
    let first : Token := ⟨.keyword .main, "main", 0, 1, 0, 0⟩
    position.IsIn source.toList ∧
      (TokenStream.ofSource .official source).firstMeaningful? = some first ∧
      first.offset ≤ position.byteOffsetIn source.toList ∧
      ∃ t ∈ (parse .official source).stream.tokens, t.isHidden = true ∧ t.line < 2 ∧ t.offset < 6 ∧
        6 < t.endOffset := by
  intro source position first
  have hposition : position.IsIn source.toList := by decide +kernel
  have hfirst : (TokenStream.ofSource .official source).firstMeaningful? = some first := by
    decide +kernel
  have hle : first.offset ≤ position.byteOffsetIn source.toList := by decide +kernel
  have hnone : ((parse .official source).resolve (Caret.ofPosition position)).isNone = true := by
    decide +kernel
  have hplace : position.byteOffsetIn source.toList = 6 := by decide +kernel
  obtain ⟨-, hiff⟩ := resolve_covers_and_eq_none_iff .official source position first hposition hfirst hle
  have hinside := hiff.mp (Option.isNone_iff_eq_none.mp hnone)
  rw [hplace] at hinside
  exact ⟨hposition, hfirst, hle, hinside⟩

/-- Not every caret in a token is found: one in the indentation of a line is not. -/
theorem exists_caret_lost : ¬ ∀ (flavor : Flavor) (source : String) (position : Position) (first : Token),
    position.IsIn source.toList →
    (TokenStream.ofSource flavor source).firstMeaningful? = some first →
    first.offset ≤ position.byteOffsetIn source.toList →
    ∃ hit t, (parse flavor source).resolve (Caret.ofPosition position) = some hit ∧
      (parse flavor source).stream.get? hit.index = some t ∧
      t.offset ≤ position.byteOffsetIn source.toList ∧
      position.byteOffsetIn source.toList ≤ t.endOffset := by
  intro h
  let source := "main\n  \x7b \x7d"
  have hnone : ((parse .official source).resolve (Caret.ofPosition ⟨1, 1⟩)).isNone = true := by
    decide +kernel
  obtain ⟨hit, t, hhit, -⟩ := h .official source ⟨1, 1⟩ ⟨.keyword .main, "main", 0, 1, 0, 0⟩
    (by decide +kernel) (by decide +kernel) (by decide +kernel)
  rw [hhit] at hnone
  cases hnone

end Parse

end QuestScript
