import QuestScript.Proofs.Check.Range
import QuestScript.Proofs.Check.WellFormed
import QuestScript.Proofs.Grammar.Account
import QuestScript.Proofs.Grammar.Raising

/-! # Syntax findings lose and reorder nothing

The findings of the lexer and those of the parser are each in the order of the text, and they are merged by a
stable sort: the merged list holds both in their order, and at one offset those of the lexer come first
(`pairwise_merged`). Every error has a finding (`Parse.map_some_syntaxFindings`), which is shown at a token
of the document, so no finding is lost (`Parse.syntax_findings_complete`). -/

namespace QuestScript

/-! ### Stable merges -/

section Merge
variable {α β : Type} (key : α ⊕ β → Nat) (xs : List α) (ys : List β)

/-- The elements of two lists, one list after the other. -/
def joined : List (α ⊕ β) := xs.map Sum.inl ++ ys.map Sum.inr

/-- The elements of two lists, sorted by a number that tells their place. -/
def merged : List (α ⊕ β) := (joined xs ys).mergeSort fun a b => decide (key a ≤ key b)

theorem key_trans (a b c : α ⊕ β) (hab : decide (key a ≤ key b) = true)
    (hbc : decide (key b ≤ key c) = true) : decide (key a ≤ key c) = true := by
  rw [decide_eq_true_eq] at *
  omega

theorem key_total (a b : α ⊕ β) : (decide (key a ≤ key b) || decide (key b ≤ key a)) = true := by
  rw [Bool.or_eq_true, decide_eq_true_eq, decide_eq_true_eq]
  omega

/-- If a part of the lists that is in order has all of their elements of a kind, they come in that order. -/
theorem filterMap_merged {γ : Type} {f : α ⊕ β → Option γ} {zs : List (α ⊕ β)}
    (hsub : zs.Sublist (joined xs ys)) (hsorted : zs.Pairwise fun a b => key a ≤ key b)
    (hall : (joined xs ys).filterMap f = zs.filterMap f) :
    (merged key xs ys).filterMap f = zs.filterMap f := by
  have hkept : zs.Sublist (merged key xs ys) :=
    List.sublist_mergeSort (key_trans key) (key_total key)
      (hsorted.imp fun h => decide_eq_true_eq.mpr h) hsub
  have hperm : (merged key xs ys).Perm (joined xs ys) := List.mergeSort_perm _ _
  have hlength := (hperm.filterMap f).length_eq
  rw [hall] at hlength
  exact ((hkept.filterMap f).eq_of_length hlength.symm).symm

/-- **The first list keeps its order.** -/
theorem lefts_merged (hsorted : xs.Pairwise fun a b => key (.inl a) ≤ key (.inl b)) :
    (merged key xs ys).filterMap Sum.getLeft? = xs := by
  have hleft : (xs.map (Sum.inl : α → α ⊕ β)).filterMap Sum.getLeft? = xs := by
    simp [List.filterMap_map, Function.comp_def]
  have hright : (ys.map (Sum.inr : β → α ⊕ β)).filterMap Sum.getLeft? = [] := by
    simp [List.filterMap_map, Function.comp_def]
  rw [filterMap_merged key xs ys (List.sublist_append_left _ _) (List.pairwise_map.mpr hsorted), hleft]
  rw [joined, List.filterMap_append, hleft, hright, List.append_nil]

/-- **The second list keeps its order.** -/
theorem rights_merged (hsorted : ys.Pairwise fun a b => key (.inr a) ≤ key (.inr b)) :
    (merged key xs ys).filterMap Sum.getRight? = ys := by
  have hleft : (xs.map (Sum.inl : α → α ⊕ β)).filterMap Sum.getRight? = [] := by
    simp [List.filterMap_map, Function.comp_def]
  have hright : (ys.map (Sum.inr : β → α ⊕ β)).filterMap Sum.getRight? = ys := by
    simp [List.filterMap_map, Function.comp_def]
  rw [filterMap_merged key xs ys (List.sublist_append_right _ _) (List.pairwise_map.mpr hsorted), hright]
  rw [joined, List.filterMap_append, hleft, hright, List.nil_append]

theorem lt_of_mem_zipIdx {x y : α ⊕ β} {i j : Nat} (hx : (x, i) ∈ (joined xs ys).zipIdx)
    (hy : (y, j) ∈ (joined xs ys).zipIdx) (hleft : x.isLeft = true) (hright : y.isLeft = false) : i < j := by
  rw [List.mk_mem_zipIdx_iff_getElem?, joined, List.getElem?_append, List.length_map] at hx hy
  have hi : i < xs.length := by
    by_contra hge
    rw [if_neg hge, List.getElem?_map] at hx
    obtain ⟨b, -, rfl⟩ := Option.map_eq_some_iff.mp hx
    cases hleft
  have hj : ¬ j < xs.length := by
    intro hlt
    rw [if_pos hlt, List.getElem?_map] at hy
    obtain ⟨a, -, rfl⟩ := Option.map_eq_some_iff.mp hy
    cases hright
  omega

/-- **The merged list is in order**, and in one place the elements of the first list come first. -/
theorem pairwise_merged : (merged key xs ys).Pairwise fun a b =>
    key a < key b ∨ key a = key b ∧ (b.isLeft = true → a.isLeft = true) := by
  -- The sort is stable: it sorts the numbered elements by their place and then by their number.
  rw [merged, ← List.mergeSort_zipIdx, List.pairwise_map]
  refine (List.pairwise_mergeSort (List.zipIdxLE_trans (key_trans key))
    (List.zipIdxLE_total (key_total key)) (joined xs ys).zipIdx).imp_of_mem ?_
  intro a b ha hb hle
  rw [List.mem_mergeSort] at ha hb
  rw [List.zipIdxLE] at hle
  simp only [decide_eq_true_eq] at hle
  by_cases hkey : key a.1 ≤ key b.1
  · by_cases hback : key b.1 ≤ key a.1
    · rw [if_pos hkey, if_pos hback, decide_eq_true_eq] at hle
      refine .inr ⟨Nat.le_antisymm hkey hback, fun hleft => ?_⟩
      by_contra hright
      have hlt := lt_of_mem_zipIdx xs ys hb ha hleft (Bool.eq_false_iff.mpr hright)
      omega
    · exact .inl (Nat.lt_of_not_le hback)
  · rw [if_neg hkey] at hle
    cases hle

theorem map_merged {γ : Type} {f : α ⊕ β → Option γ} (hf : ∀ x, ∃ y, f x = some y) :
    (((joined xs ys).filterMap fun x => (f x).map (key x, ·)).mergeSort
      fun a b => decide (a.1 ≤ b.1)).map (fun a => some a.2) = (merged key xs ys).map f := by
  choose g hg using hf
  have hplaced : (joined xs ys).filterMap (fun x => (f x).map (key x, ·)) =
      (joined xs ys).map fun x => (key x, g x) := by
    simp only [hg, Option.map_some, List.filterMap_eq_map']
  have hsorted : (merged key xs ys).map (fun x => (key x, g x)) =
      ((joined xs ys).map fun x => (key x, g x)).mergeSort fun a b => decide (a.1 ≤ b.1) :=
    List.map_mergeSort fun _ _ _ _ => rfl
  rw [hplaced, ← hsorted, List.map_map]
  exact List.map_congr_left fun x _ => (hg x).symm

end Merge

/-! ### Errors at tokens -/

/-- The problem is one of the lexer. -/
def Problem.isLexical : Problem → Bool
  | unterminatedString | invalidInput => true
  | _ => false

namespace Parse
variable {flavor : Flavor} {source : String} {d e : SyntaxError} {t u : Token}

theorem isLexical_lexicalFinding (t : Token) : (lexicalFinding t).problem.isLexical = true := by
  dsimp only [lexicalFinding, Finding.plain]
  split <;> rfl

theorem isLexical_problem (e : SyntaxError) (found : String) : (e.problem found).isLexical = false := by
  dsimp only [SyntaxError.problem]
  split <;> rfl

theorem offset_le (ht : t ∈ (parse flavor source).stream.tokens)
    (hu : u ∈ (parse flavor source).stream.tokens) (h : t.index ≤ u.index) : t.offset ≤ u.offset := by
  rcases Nat.lt_or_eq_of_le h with hlt | heq
  · have hend : t.endOffset ≤ u.offset := TokenStream.endOffset_le ht hu hlt
    rw [Token.endOffset] at hend
    omega
  · rw [TokenStream.eq_of_index_eq ht hu heq]

/-- The error is raised at a token of the document or at its end, and this is where it is sorted to. -/
theorem exists_offending (he : e ∈ (parse flavor source).errors) :
    ∃ t ∈ (parse flavor source).stream.tokens,
      (parse flavor source).stream.get? ((parse flavor source).offendingIndex e) = some t ∧
      t.index = (parse flavor source).offendingIndex e ∧ (parse flavor source).errorOffset e = t.offset := by
  obtain ⟨t, hget, hsame, -⟩ := offending_token he
  refine ⟨t, List.mem_of_getElem? hget, hget, TokenStream.index_of_getElem? hget, ?_⟩
  unfold errorOffset
  cases hoffending : e.offending with
  | none =>
    rw [offendingIndex, hoffending, Option.map_none, Option.getD_none] at hget
    rw [Option.none_or, hget]
    rfl
  | some s =>
    have hs : s = t := hsame s hoffending
    rw [hs]
    rfl

/-- **The errors are in the order of the text.** -/
theorem pairwise_errorOffset (flavor : Flavor) (source : String) :
    (parse flavor source).errors.Pairwise fun d e =>
      (parse flavor source).errorOffset d ≤ (parse flavor source).errorOffset e := by
  refine (pairwise_offendingIndex flavor source).imp_of_mem fun {d e} hd he hle => ?_
  obtain ⟨t, ht, -, htindex, htoffset⟩ := exists_offending hd
  obtain ⟨u, hu, -, huindex, huoffset⟩ := exists_offending he
  rw [htoffset, huoffset]
  exact offset_le ht hu (by omega)

/-! ### The findings -/

/-- Where unknown text starts, or the token at which an error is raised. -/
def complaintOffset (p : Parse) : Token ⊕ SyntaxError → Nat := Sum.elim (·.offset) p.errorOffset

/-- The finding for unknown text or for an error. -/
def complaintFinding? (p : Parse) : Token ⊕ SyntaxError → Option Finding :=
  Sum.elim (fun t => some (lexicalFinding t)) p.syntaxFinding?

/-- What the lexer and the parser complain about, in the order of the text. -/
def complaints (p : Parse) : List (Token ⊕ SyntaxError) :=
  merged p.complaintOffset p.stream.unknown p.errors

theorem map_some_filterMap {β γ : Type} {f : β → Option γ} {xs : List β}
    (h : ∀ x ∈ xs, ∃ y, f x = some y) : (xs.filterMap f).map some = xs.map f := by
  induction xs with
  | nil => rfl
  | cons x xs ih =>
    rw [List.forall_mem_cons] at h
    obtain ⟨⟨y, hy⟩, hxs⟩ := h
    rw [List.filterMap_cons_some hy, List.map_cons, List.map_cons, ih hxs, hy]

theorem map_some_parserFindings (flavor : Flavor) (source : String) :
    (parse flavor source).parserFindings.map some =
      (parse flavor source).errors.map (parse flavor source).syntaxFinding? :=
  map_some_filterMap fun e _ => exists_syntaxFinding flavor source e

/-- **The findings are those of what is complained about**, in the order of the text. -/
theorem map_some_syntaxFindings (flavor : Flavor) (source : String) :
    (parse flavor source).syntaxFindings.map some =
      (parse flavor source).complaints.map (parse flavor source).complaintFinding? := by
  have hfinding : ∀ x, ∃ f, (parse flavor source).complaintFinding? x = some f := by
    intro x
    cases x with
    | inl t => exact ⟨_, rfl⟩
    | inr e => exact exists_syntaxFinding flavor source e
  have hjoined : (joined (parse flavor source).stream.unknown (parse flavor source).errors).filterMap
      (fun x => ((parse flavor source).complaintFinding? x).map
        ((parse flavor source).complaintOffset x, ·)) =
      (parse flavor source).stream.unknown.map (fun t => (t.offset, lexicalFinding t)) ++
        (parse flavor source).errors.filterMap fun e =>
          ((parse flavor source).syntaxFinding? e).map ((parse flavor source).errorOffset e, ·) := by
    rw [joined, List.filterMap_append, List.filterMap_map, List.filterMap_map, ← List.filterMap_eq_map]
    rfl
  rw [complaints, ← map_merged _ _ _ hfinding, hjoined, syntaxFindings, List.map_map]
  rfl

theorem filter_isLexical {p : Parse} {findings : List Finding} {complaints : List (Token ⊕ SyntaxError)}
    (h : findings.map some = complaints.map p.complaintFinding?) :
    findings.filter (·.problem.isLexical) = (complaints.filterMap Sum.getLeft?).map lexicalFinding ∧
      (findings.filter (!·.problem.isLexical)).map some =
        (complaints.filterMap Sum.getRight?).map p.syntaxFinding? := by
  induction complaints generalizing findings with
  | nil => simp [List.map_eq_nil_iff.mp h]
  | cons x complaints ih =>
    obtain ⟨f, findings, rfl⟩ := List.exists_cons_of_ne_nil (l := findings) (by rintro rfl; cases h)
    obtain ⟨hf, hrest⟩ := List.cons.inj h
    obtain ⟨hlexical, hsyntactic⟩ := ih hrest
    cases x with
    | inl t =>
      obtain rfl : f = lexicalFinding t := Option.some.inj hf
      have hproblem := isLexical_lexicalFinding t
      rw [List.filter_cons_of_pos (by simpa using hproblem), List.filter_cons_of_neg (by simp [hproblem])]
      exact ⟨congrArg (lexicalFinding t :: ·) hlexical, hsyntactic⟩
    | inr e =>
      obtain ⟨t, -, ht⟩ := Option.map_eq_some_iff.mp hf.symm
      have hproblem : f.problem.isLexical = false := ht ▸ isLexical_problem e t.text
      rw [List.filter_cons_of_neg (by simp [hproblem]), List.filter_cons_of_pos (by simp [hproblem]),
        List.map_cons, hf]
      exact ⟨hlexical, congrArg (p.syntaxFinding? e :: ·) hsyntactic⟩

theorem exists_shown_of_mem {f : Finding} (hf : f ∈ (parse flavor source).syntaxFindings) :
    ∃ t ∈ (parse flavor source).stream.document, f.range = t.span ∧
      ∀ found what, f.problem = .extraneous found what → found = t.text := by
  rcases of_mem_syntaxFindings hf with ⟨t, ht, rfl⟩ | ⟨e, he, t, ht, rfl⟩
  · refine ⟨t, TokenStream.mem_document_of_mem_unknown ht, rfl, fun found what hproblem => ?_⟩
    have hlexical := isLexical_lexicalFinding t
    rw [hproblem] at hlexical
    cases hlexical
  · refine ⟨t, (List.mem_filter.mp (shownToken?_mem he ht)).1, rfl, fun found what hproblem => ?_⟩
    dsimp only [Finding.plain, SyntaxError.problem] at hproblem
    split at hproblem
    · cases hproblem
    · injection hproblem with hfound _
      exact hfound.symm

theorem start_lt_of_isEnd (ht : t ∈ (parse flavor source).stream.document)
    (hu : u ∈ (parse flavor source).stream.tokens) (hend : u.isEnd = true) :
    t.span.start < u.span.start := by
  obtain ⟨ht, hopen⟩ := List.mem_filter.mp ht
  have hindex : t.index < u.index := by
    rcases Nat.lt_trichotomy t.index u.index with hlt | heq | hgt
    · exact hlt
    · rw [TokenStream.eq_of_index_eq ht hu heq, hend] at hopen
      cases hopen
    · -- Only the last token marks the end.
      have hu := (List.mem_filter.mp (TokenStream.mem_document_of_index_lt hu ht hgt)).2
      rw [hend] at hu
      cases hu
  exact (TokenStream.start_lt_and_stop_le ht hu hindex).1

/-- **Syntax findings lose and reorder nothing.** The errors are raised in the order of the tokens at which
they are raised, the end of the document included. The unknown text and the errors, in the order of their
offsets and the unknown text first where they are the same, are what the findings are for, each for one. So
those of the lexer and those of the parser are found among them in their order. A finding is shown at a token
before the end of the document, and if it quotes a text, it is that of the token. There is no finding exactly
if the document follows the rules of the lexer and of the grammar. -/
theorem syntax_findings_complete (flavor : Flavor) (source : String) :
    let p := parse flavor source
    p.errors.Pairwise (fun d e => p.offendingIndex d ≤ p.offendingIndex e) ∧
    (∀ e ∈ p.errors, ∃ t, p.stream.get? (p.offendingIndex e) = some t ∧ p.errorOffset e = t.offset) ∧
    (∃ complaints : List (Token ⊕ SyntaxError),
      complaints.filterMap Sum.getLeft? = p.stream.unknown ∧
      complaints.filterMap Sum.getRight? = p.errors ∧
      (complaints.Pairwise fun a b => p.complaintOffset a < p.complaintOffset b ∨
        p.complaintOffset a = p.complaintOffset b ∧ (b.isLeft = true → a.isLeft = true)) ∧
      p.syntaxFindings.map some = complaints.map p.complaintFinding?) ∧
    p.syntaxFindings.filter (·.problem.isLexical) = p.lexicalFindings ∧
    p.syntaxFindings.filter (!·.problem.isLexical) = p.parserFindings ∧
    p.parserFindings.map some = p.errors.map p.syntaxFinding? ∧
    (∀ f ∈ p.syntaxFindings, ∃ t ∈ p.stream.document, f.range = t.span ∧
      (∀ found what, f.problem = .extraneous found what → found = t.text) ∧
      ∀ u ∈ p.stream.tokens, u.isEnd = true → f.range.start < u.span.start) ∧
    (p.isClean = true ↔ p.syntaxFindings = []) := by
  intro p
  have hunknown : p.stream.unknown.Pairwise fun t u => t.offset ≤ u.offset :=
    ((TokenStream.pairwise_offset_tokens flavor source).sublist List.filter_sublist).imp Nat.le_of_lt
  have hlefts : p.complaints.filterMap Sum.getLeft? = p.stream.unknown := lefts_merged _ _ _ hunknown
  have hrights : p.complaints.filterMap Sum.getRight? = p.errors :=
    rights_merged _ _ _ (pairwise_errorOffset flavor source)
  have hfindings : p.syntaxFindings.map some = p.complaints.map p.complaintFinding? :=
    map_some_syntaxFindings flavor source
  obtain ⟨hlexical, hsyntactic⟩ := filter_isLexical hfindings
  have hparser : p.parserFindings.map some = p.errors.map p.syntaxFinding? :=
    map_some_parserFindings flavor source
  rw [hlefts] at hlexical
  rw [hrights, ← hparser] at hsyntactic
  refine ⟨pairwise_offendingIndex flavor source, fun e he => ?_,
    ⟨p.complaints, hlefts, hrights, pairwise_merged _ _ _, hfindings⟩, hlexical,
    List.map_injective_iff.mpr (Option.some_injective _) hsyntactic, hparser, fun f hf => ?_, ?_⟩
  · obtain ⟨t, -, hget, -, hoffset⟩ := exists_offending he
    exact ⟨t, hget, hoffset⟩
  · obtain ⟨t, ht, hrange, hquoted⟩ := exists_shown_of_mem hf
    refine ⟨t, ht, hrange, hquoted, fun u hu hend => ?_⟩
    rw [hrange]
    exact start_lt_of_isEnd ht hu hend
  · rw [syntaxFindings_eq_nil_iff, isClean, Bool.and_eq_true, List.isEmpty_iff, List.isEmpty_iff]

end Parse

end QuestScript
