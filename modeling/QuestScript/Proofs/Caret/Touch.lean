import QuestScript.Caret
import QuestScript.Proofs.Span
import QuestScript.Proofs.Token.Order

/-! # Tokens that touch a caret

A caret may stand between two tokens and then touches both, but no third one: of two tokens at a caret there
is no other between (`Caret.not_isIn_of_between`). So a token at a caret that stands behind some token not at
the caret is the first of all at the caret if it is the first from there on (`Caret.IsFirst.of_behind`).

The tokens searched for a tree are those between its first and its last leaf (`Parse.mem_tokensIn`), and for a
file those from the first that the grammar sees to the end (`Parse.mem_tokensIn_tree`). -/

namespace QuestScript

/-! ### The first token at a caret -/

namespace Caret
variable {c : Caret} {t u m : Token} {ts : List Token}

theorem isIn_iff : c.isIn t = true ↔
    t.line = c.line ∧ t.column ≤ c.column ∧ c.column ≤ t.column + t.charLength := by
  simp [isIn, and_assoc]

/-- The token is the first of those that contain the caret. -/
structure IsFirst (c : Caret) (ts : List Token) (t : Token) : Prop where
  mem : t ∈ ts
  isIn : c.isIn t = true
  le : ∀ u ∈ ts, c.isIn u = true → t.index ≤ u.index

theorem IsFirst.of_subset {us : List Token} (h : c.IsFirst ts t) (ht : t ∈ us) (hsub : us ⊆ ts) :
    c.IsFirst us t :=
  ⟨ht, h.isIn, fun u hu => h.le u (hsub hu)⟩

theorem IsFirst.find?_eq (hts : ts.Pairwise (·.index < ·.index)) (h : c.IsFirst ts t) :
    ts.find? c.isIn = some t := by
  induction ts with
  | nil => exact absurd h.mem List.not_mem_nil
  | cons u ts ih =>
    obtain ⟨hbehind, hts⟩ := List.pairwise_cons.mp hts
    rcases List.mem_cons.mp h.mem with rfl | hmem
    · exact List.find?_cons_of_pos h.isIn
    · have hu : ¬ c.isIn u = true := fun hu => by
        have hle := h.le u List.mem_cons_self hu
        have hlt := hbehind t hmem
        omega
      rw [List.find?_cons_of_neg hu]
      exact ih hts ⟨hmem, h.isIn, fun v hv => h.le v (List.mem_cons_of_mem u hv)⟩

theorem isFirst_of_find? (hts : ts.Pairwise (·.index < ·.index)) (h : ts.find? c.isIn = some t) :
    c.IsFirst ts t := by
  refine ⟨List.mem_of_find?_eq_some h, List.find?_some h, fun u hu hin => ?_⟩
  induction ts with
  | nil => cases hu
  | cons v ts ih =>
    obtain ⟨hbehind, hts⟩ := List.pairwise_cons.mp hts
    by_cases hv : c.isIn v = true
    · rw [List.find?_cons_of_pos hv] at h
      obtain rfl := Option.some.inj h
      rcases List.mem_cons.mp hu with rfl | hu
      · exact Nat.le_refl _
      · exact (hbehind u hu).le
    · rw [List.find?_cons_of_neg hv] at h
      rcases List.mem_cons.mp hu with rfl | hu
      · exact absurd hin hv
      · exact ih hts h hu

theorem find?_eq_none (h : ∀ t ∈ ts, c.isIn t = false) : ts.find? c.isIn = none :=
  List.find?_eq_none.mpr fun t ht => by simp [h t ht]

variable {flavor : Flavor} {source : String}

/-- **Of two tokens at a caret there is no other between**, since it would have a character there. -/
theorem not_isIn_of_between (ht : t ∈ (TokenStream.ofSource flavor source).tokens)
    (hm : m ∈ (TokenStream.ofSource flavor source).tokens)
    (hu : u ∈ (TokenStream.ofSource flavor source).tokens) (htm : t.index < m.index)
    (hmu : m.index < u.index) (htin : c.isIn t = true) : c.isIn u = false := by
  refine Bool.eq_false_iff.mpr fun huin => ?_
  obtain ⟨htline, -, htcolumn⟩ := isIn_iff.mp htin
  obtain ⟨huline, hucolumn, -⟩ := isIn_iff.mp huin
  obtain ⟨hline, hcolumn⟩ := TokenStream.line_le_and_column_le ht hm htm
  obtain ⟨hline', hcolumn'⟩ := TokenStream.line_le_and_column_le hm hu hmu
  have hpos := TokenStream.charLength_pos hm
  have hleft := hcolumn (by omega)
  have hright := hcolumn' (by omega)
  omega

/-- Behind a token that is not at the caret, the first token at the caret is the first of all. -/
theorem IsFirst.of_behind (hm : m ∈ (TokenStream.ofSource flavor source).tokens)
    (ht : t ∈ (TokenStream.ofSource flavor source).tokens) (hmt : m.index < t.index)
    (htin : c.isIn t = true) (hmin : c.isIn m = false)
    (hle : ∀ u ∈ (TokenStream.ofSource flavor source).tokens, m.index < u.index →
      c.isIn u = true → t.index ≤ u.index) :
    c.IsFirst (TokenStream.ofSource flavor source).tokens t := by
  refine ⟨ht, htin, fun u hu huin => ?_⟩
  rcases Nat.lt_trichotomy m.index u.index with hlt | heq | hgt
  · exact hle u hu hlt huin
  · rw [TokenStream.eq_of_index_eq hm hu heq, huin] at hmin
    cases hmin
  · rw [not_isIn_of_between hu hm ht hgt hmt huin] at htin
    cases htin

end Caret

/-! ### The tokens of a tree -/

/-- The tokens reach from before the token at an index, or from it, to it or behind it. -/
def ReachAround (ls : List Token) (i : Nat) : Prop :=
  (∃ l ∈ ls, l.index ≤ i) ∧ ∃ l ∈ ls, i ≤ l.index

theorem ReachAround.mono {ls ms : List Token} {i : Nat} (h : ReachAround ls i) (hsub : ls ⊆ ms) :
    ReachAround ms i :=
  ⟨h.1.imp fun _ hl => ⟨hsub hl.1, hl.2⟩, h.2.imp fun _ hl => ⟨hsub hl.1, hl.2⟩⟩

theorem reachAround_of_mem {ls : List Token} {l : Token} (h : l ∈ ls) : ReachAround ls l.index :=
  ⟨⟨l, h, Nat.le_refl _⟩, ⟨l, h, Nat.le_refl _⟩⟩

theorem reachAround_iff {ls : List Token} {first last : Token} {i : Nat}
    (hls : ls.Pairwise (·.index < ·.index)) (hfirst : ls.head? = some first)
    (hlast : ls.getLast? = some last) : ReachAround ls i ↔ first.index ≤ i ∧ i ≤ last.index := by
  have hmem_first := List.mem_of_mem_head? hfirst
  have hmem_last := List.mem_of_getLast? hlast
  refine ⟨fun ⟨⟨l, hl, hle⟩, m, hm, hge⟩ => ⟨?_, ?_⟩,
    fun ⟨hle, hge⟩ => ⟨⟨first, hmem_first, hle⟩, ⟨last, hmem_last, hge⟩⟩⟩
  · obtain ⟨later, rfl⟩ := List.head?_eq_some_iff.mp hfirst
    rcases List.mem_cons.mp hl with rfl | hl
    · exact hle
    · exact ((List.pairwise_cons.mp hls).1 l hl).le.trans hle
  · obtain ⟨earlier, rfl⟩ := List.getLast?_eq_some_iff.mp hlast
    rcases List.mem_append.mp hm with hm | hm
    · exact hge.trans ((List.pairwise_append.mp hls).2.2 m hm last (List.mem_singleton_self last)).le
    · rwa [List.mem_singleton.mp hm] at hge

namespace TokenStream
variable {flavor : Flavor} {source : String} {t : Token}

theorem pairwise_index_significant (flavor : Flavor) (source : String) :
    (ofSource flavor source).significant.Pairwise (·.index < ·.index) :=
  (pairwise_index_tokens flavor source).sublist (List.filter_sublist.trans List.filter_sublist)

theorem mem_tokens_of_mem_significant (h : t ∈ (ofSource flavor source).significant) :
    t ∈ (ofSource flavor source).tokens :=
  mem_tokens_of_mem_document (List.mem_filter.mp h).1

theorem start_lt_and_stop_le_of_pair {u : Token} (h : [t, u].Sublist (ofSource flavor source).significant) :
    t.span.start < u.span.start ∧ t.span.stop ≤ u.span.start := by
  have hsorted := (pairwise_index_significant flavor source).sublist h
  exact start_lt_and_stop_le (mem_tokens_of_mem_significant (h.subset List.mem_cons_self))
    (mem_tokens_of_mem_significant (h.subset (by simp)))
    ((List.pairwise_cons.mp hsorted).1 u List.mem_cons_self)

theorem pairwise_line_tokens (flavor : Flavor) (source : String) :
    (ofSource flavor source).tokens.Pairwise (·.line ≤ ·.line) :=
  (pairwise_index_tokens flavor source).imp_of_mem fun ht hu h => (line_le_and_column_le ht hu h).1

theorem mem_drop_take {i j : Nat} : t ∈ ((ofSource flavor source).tokens.take (j + 1)).drop i ↔
    t ∈ (ofSource flavor source).tokens ∧ i ≤ t.index ∧ t.index ≤ j := by
  constructor
  · intro h
    have ht := List.mem_of_mem_take (List.mem_of_mem_drop h)
    obtain ⟨n, hn⟩ := List.mem_iff_getElem?.mp h
    rw [List.getElem?_drop, List.getElem?_take] at hn
    split at hn
    · have hindex := index_of_getElem? hn
      exact ⟨ht, by omega⟩
    · cases hn
  · rintro ⟨ht, hi, hj⟩
    have hget : (ofSource flavor source).tokens[t.index]? = some t := get?_index ht
    refine List.mem_iff_getElem?.mpr ⟨t.index - i, ?_⟩
    rw [List.getElem?_drop, List.getElem?_take, Nat.add_sub_cancel' hi, if_pos (by omega), hget]

theorem exists_end (flavor : Flavor) (source : String) : ∃ e ∈ (ofSource flavor source).tokens,
    e.isEnd = true ∧ e.index = (ofSource flavor source).length - 1 := by
  refine ⟨_, ?_, rfl, index_endToken flavor source⟩
  rw [tokens_eq_document_append]
  exact List.mem_append_right _ (List.mem_singleton_self _)

theorem index_le_end (h : t ∈ (ofSource flavor source).tokens) :
    t.index ≤ (ofSource flavor source).length - 1 := by
  have hlt := (List.getElem?_eq_some_iff.mp (get?_index h)).1
  rw [length]
  omega

theorem isEnd_iff (h : t ∈ (ofSource flavor source).tokens) :
    t.isEnd = true ↔ t.index = (ofSource flavor source).length - 1 := by
  constructor
  · intro hend
    rw [tokens_eq_document_append, List.mem_append, List.mem_singleton] at h
    rcases h with h | rfl
    · have hdocument := (List.mem_filter.mp h).2
      rw [hend] at hdocument
      cases hdocument
    · exact index_endToken flavor source
  · intro hindex
    obtain ⟨e, he, hend, hlast⟩ := exists_end flavor source
    rwa [eq_of_index_eq h he (hindex.trans hlast.symm)]

theorem not_isHidden_of_mem_significant (h : t ∈ (ofSource flavor source).significant) :
    t.isHidden = false ∧ t.isEnd = false := by
  obtain ⟨hdocument, hsignificant⟩ := List.mem_filter.mp h
  exact ⟨by simpa [Token.isSignificant] using hsignificant,
    by simpa using (List.mem_filter.mp hdocument).2⟩

theorem mem_significant (h : t ∈ (ofSource flavor source).tokens) (hhidden : t.isHidden = false)
    (hend : t.isEnd = false) : t ∈ (ofSource flavor source).significant :=
  List.mem_filter.mpr ⟨List.mem_filter.mpr ⟨h, by simp [hend]⟩, by simp [Token.isSignificant, hhidden]⟩

end TokenStream

namespace Parse
variable {flavor : Flavor} {source : String} {t : Tree} {u first last : Token} {i : Nat}

/-- The tokens of the stream from the first to the last that the grammar sees in a tree reach around an
index. -/
def Encloses (p : Parse) (t : Tree) (i : Nat) : Prop :=
  ∃ first last, p.tokenRange? t = some (first, last) ∧ first ≤ i ∧ i ≤ last

theorem significantTokens_eq_leaves
    (h : t.leaves.Sublist (parse flavor source).stream.significant) : t.significantTokens = t.leaves :=
  List.filter_eq_self.mpr fun _ hl => (List.mem_filter.mp (h.subset hl)).2

theorem tokenRange?_eq (h : t.leaves.Sublist (parse flavor source).stream.significant)
    (hfirst : t.leaves.head? = some first) (hlast : t.leaves.getLast? = some last) :
    (parse flavor source).tokenRange? t = some (first.index, last.index) := by
  have heq := significantTokens_eq_leaves h
  rw [← heq] at h hfirst hlast
  exact tokenRange?_eq_of_sublist h hfirst hlast

/-- **The range of a tree is that of its leaves.** -/
theorem encloses_iff (h : t.leaves.Sublist (parse flavor source).stream.significant) :
    (parse flavor source).Encloses t i ↔ ReachAround t.leaves i := by
  rcases eq_or_ne t.leaves [] with hnil | hne
  · rw [Encloses, tokenRange?_eq_none _ ((significantTokens_eq_leaves h).trans hnil), ReachAround, hnil]
    simp
  · have hfirst := List.head?_eq_some_head hne
    have hlast := List.getLast?_eq_some_getLast hne
    have hsorted := (TokenStream.pairwise_index_significant flavor source).sublist h
    rw [Encloses, tokenRange?_eq h hfirst hlast, reachAround_iff hsorted hfirst hlast]
    simp

theorem tokensIn_sublist (p : Parse) (t : Tree) : (p.tokensIn t).Sublist p.stream.tokens := by
  unfold tokensIn
  split
  · exact (List.drop_sublist _ _).trans (List.take_sublist _ _)
  · exact List.nil_sublist _

/-- **Tokens that a caret's line is beside do not contain the caret.** -/
theorem isIn_eq_false_of_isBeside {c : Caret} {ts : List Token}
    (hts : ts.Sublist (parse flavor source).stream.tokens) (h : isBeside c ts = true) (hu : u ∈ ts) :
    c.isIn u = false := by
  refine Bool.eq_false_iff.mpr fun hin => ?_
  have hline := (Caret.isIn_iff.mp hin).1
  have hsorted := (TokenStream.pairwise_line_tokens flavor source).sublist hts
  rw [isBeside, Bool.or_eq_true, Option.any_eq_true, Option.any_eq_true] at h
  rcases h with ⟨first, hfirst, hlt⟩ | ⟨last, hlast, hlt⟩
  · obtain ⟨later, rfl⟩ := List.head?_eq_some_iff.mp hfirst
    have hlt := of_decide_eq_true hlt
    rcases List.mem_cons.mp hu with rfl | hu
    · omega
    · have hle := (List.pairwise_cons.mp hsorted).1 u hu
      omega
  · obtain ⟨earlier, rfl⟩ := List.getLast?_eq_some_iff.mp hlast
    have hlt := of_decide_eq_true hlt
    rcases List.mem_append.mp hu with hu | hu
    · have hle := (List.pairwise_append.mp hsorted).2.2 u hu last (List.mem_singleton_self last)
      omega
    · rw [List.mem_singleton.mp hu] at hline
      omega

/-- **What is searched for a tree** is what stands between its first and its last leaf. -/
theorem mem_tokensIn (h : t.leaves.Sublist (parse flavor source).stream.significant)
    (hfile : t.isNode .file = false) : u ∈ (parse flavor source).tokensIn t ↔
      u ∈ (parse flavor source).stream.tokens ∧ ReachAround t.leaves u.index := by
  rw [tokensIn, reachOf?, hfile, if_neg Bool.false_ne_true, ← encloses_iff h, Encloses]
  cases (parse flavor source).tokenRange? t with
  | none => simp
  | some range =>
    obtain ⟨first, last⟩ := range
    have hslice : u ∈ ((parse flavor source).stream.tokens.take (last + 1)).drop first ↔
        u ∈ (parse flavor source).stream.tokens ∧ first ≤ u.index ∧ u.index ≤ last :=
      TokenStream.mem_drop_take
    simpa using hslice

/-- For a file it is what stands from the first token that the grammar sees on, and the end. -/
theorem mem_tokensIn_tree (hu : u ∈ (parse flavor source).stream.tokens) :
    u ∈ (parse flavor source).tokensIn (parse flavor source).tree ↔
      u.isEnd = true ∨ ∃ s ∈ (parse flavor source).stream.significant, s.index ≤ u.index := by
  have hleaves := leaves_tree flavor source
  have hle := TokenStream.index_le_end hu
  have hend := TokenStream.isEnd_iff hu
  have hlast : (parse flavor source).endIndex = (TokenStream.ofSource flavor source).length - 1 := rfl
  have hmem : ∀ first, u ∈ ((parse flavor source).stream.tokens.take
      ((parse flavor source).endIndex + 1)).drop first ↔ first ≤ u.index := by
    intro first
    refine TokenStream.mem_drop_take.trans ⟨fun h => h.2.1, fun h => ⟨hu, h, ?_⟩⟩
    rwa [hlast]
  rw [tokensIn, reachOf?, if_pos (show (parse flavor source).tree.isNode .file = true from rfl)]
  dsimp only
  rw [hmem]
  cases hs : (parse flavor source).stream.significant with
  | nil =>
    have hnil : (parse flavor source).tree.significantTokens = [] := by
      rw [Tree.significantTokens, hleaves, hs]
      rfl
    rw [tokenRange?_eq_none _ hnil, Option.map_none, Option.getD_none, hend, hlast]
    simp only [List.not_mem_nil, false_and, exists_false, or_false]
    omega
  | cons s rest =>
    have hne : (parse flavor source).tree.leaves ≠ [] := by rw [hleaves, hs]; exact List.cons_ne_nil s rest
    have hfirst : (parse flavor source).tree.leaves.head? = some s := by rw [hleaves, hs]; rfl
    have hsorted := TokenStream.pairwise_index_significant flavor source
    rw [show (TokenStream.ofSource flavor source).significant = s :: rest from hs,
      List.pairwise_cons] at hsorted
    have hs_mem : s ∈ (TokenStream.ofSource flavor source).tokens :=
      TokenStream.mem_tokens_of_mem_significant (hs ▸ List.mem_cons_self)
    rw [tokenRange?_eq (hleaves ▸ List.Sublist.refl _) hfirst (List.getLast?_eq_some_getLast hne),
      Option.map_some, Option.getD_some]
    constructor
    · exact fun h => Or.inr ⟨s, List.mem_cons_self, h⟩
    · rintro (h | ⟨v, hv, h⟩)
      · rw [hend.mp h]
        exact TokenStream.index_le_end hs_mem
      · rcases List.mem_cons.mp hv with rfl | hv
        · exact h
        · exact (hsorted.1 v hv).le.trans h

end Parse

end QuestScript
