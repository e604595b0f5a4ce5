import Mathlib.Data.List.Pairwise
import QuestScript.Proofs.Caret.Scan
import QuestScript.Proofs.Check.Catalog
import QuestScript.Proofs.Check.Names

/-! # A caret on a token

Every token of the grammar has one place in the tree (`Parse.eq_of_focus_token`), so a caret of which the
token is the first is found there (`Analysis.hitAt_eq_of_isFirst`). A token contains the carets in its span
(`Caret.isIn_ofPosition`), and is the first at the end of its span (`TokenStream.isFirst_stop`). Where tokens
touch, the earlier one is found; it is in the same node unless the later one is the first there
(`Analysis.exists_hitAt_within`). -/

namespace QuestScript

/-! ### Places of tokens -/

theorem eq_of_nodup_filterMap {α β : Type} {f : α → Option β} {xs : List α} (h : (xs.filterMap f).Nodup)
    {x y : α} (hx : x ∈ xs) (hy : y ∈ xs) {b : β} (hfx : f x = some b) (hfy : f y = some b) : x = y := by
  by_contra hne
  have hpairwise := List.pairwise_filterMap.mp h
  have hsymm : Std.Symm fun x y => ∀ b, f x = some b → ∀ b', f y = some b' → b ≠ b' :=
    ⟨fun x y hxy b hb b' hb' => (hxy b' hb' b hb).symm⟩
  exact hpairwise.forall hx hy hne b hfx b hfy rfl

namespace Parse
variable {flavor : Flavor} {source : String} {p q : Place} {t : Token}

theorem mem_significant_of_focus (hp : p ∈ (Place.root (parse flavor source).tree).descendants)
    (ht : p.focus.token? = some t) : t ∈ (parse flavor source).stream.significant := by
  rw [← leaves_tree, ← Place.tokens_within [] (parse flavor source).tree]
  exact List.mem_filterMap.mpr ⟨p, hp, ht⟩

/-- **A token stands in one place of the tree.** -/
theorem eq_of_focus_token (hp : p ∈ (Place.root (parse flavor source).tree).descendants)
    (hq : q ∈ (Place.root (parse flavor source).tree).descendants) (ht : p.focus.token? = some t)
    (hu : q.focus.token? = some t) : p = q := by
  have hnodup := TokenStream.nodup_significant flavor source
  change (parse flavor source).stream.significant.Nodup at hnodup
  rw [← leaves_tree, ← Place.tokens_within [] (parse flavor source).tree] at hnodup
  exact eq_of_nodup_filterMap hnodup hp hq ht hu

end Parse

/-! ### Carets on tokens -/

theorem Span.contains_iff {s : Span} {p : Position} : s.contains p = true ↔ s.start ≤ p ∧ p ≤ s.stop := by
  rw [contains, Bool.and_eq_true, decide_eq_true_eq, decide_eq_true_eq]

section Source
variable {flavor : Flavor} {source : String} {t u : Token} {position : Position}

theorem Caret.isIn_ofPosition (ht : t ∈ (TokenStream.ofSource flavor source).tokens) :
    (Caret.ofPosition position).isIn t = t.span.contains position := by
  have hline := TokenStream.line_pos ht
  rw [Bool.eq_iff_iff, Caret.isIn_iff, Span.contains_iff, Position.le_iff, Position.le_iff]
  dsimp only [Caret.ofPosition, Token.span]
  omega

theorem TokenStream.start_lt_of_contains (h : [t, u].Sublist (ofSource flavor source).significant)
    (hcontains : u.span.contains position = true) : t.span.start < position := by
  exact Position.lt_of_lt_of_le (start_lt_and_stop_le_of_pair h).1 (Span.contains_iff.mp hcontains).1

theorem TokenStream.not_start_lt_of_contains (h : [t, u].Sublist (ofSource flavor source).significant)
    (hcontains : t.span.contains position = true) : ¬ u.span.start < position := by
  have hle := Position.le_trans (Span.contains_iff.mp hcontains).2 (start_lt_and_stop_le_of_pair h).2
  rw [Position.lt_iff]
  rw [Position.le_iff] at hle
  omega

/-- At the end of its span a token is the first at the caret: one before it ends where it starts. -/
theorem TokenStream.isFirst_stop (ht : t ∈ (ofSource flavor source).significant) :
    (Caret.ofPosition t.span.stop).IsFirst (ofSource flavor source).significant t := by
  have htokens := mem_tokens_of_mem_significant ht
  have hlength := charLength_pos htokens
  refine ⟨ht, ?_, fun u hu huin => ?_⟩
  · rw [Caret.isIn_ofPosition htokens, Span.contains_iff]
    exact ⟨t.start_le_stop, Position.le_refl _⟩
  · by_contra hlt
    have hline := line_pos htokens
    obtain ⟨-, hcolumn⟩ := line_le_and_column_le (mem_tokens_of_mem_significant hu) htokens (by omega)
    obtain ⟨huline, -, hustop⟩ := Caret.isIn_iff.mp huin
    dsimp only [Caret.ofPosition, Token.span] at huline hustop
    have hcolumn := hcolumn (by omega)
    omega

namespace Analysis
variable {place : Place}

/-- **A caret of which a token is the first is found on its place.** -/
theorem hitAt_eq_of_isFirst
    (hplace : place ∈ (Place.root (QuestScript.parse flavor source).tree).descendants)
    (ht : place.focus.token? = some t)
    (hfirst : (Caret.ofPosition position).IsFirst (TokenStream.ofSource flavor source).significant t) :
    (ofSource flavor source).hitAt position =
      some ⟨t.index, place, (Caret.ofPosition position).textBefore t⟩ := by
  have hscan := Parse.resolve_scans flavor source (Caret.ofPosition position)
  have hfind : (QuestScript.parse flavor source).stream.significant.find?
      (Caret.ofPosition position).isIn = some t :=
    hfirst.find?_eq (TokenStream.pairwise_index_significant flavor source)
  dsimp only at hscan
  rw [hfind] at hscan
  obtain ⟨found, hfound, hfocus, hresolve⟩ := hscan
  have htoken : found.focus.token? = some t := by rw [hfocus]; rfl
  rw [Parse.eq_of_focus_token hplace hfound ht htoken]
  exact hresolve

theorem hitAt_stop (hplace : place ∈ (Place.root (QuestScript.parse flavor source).tree).descendants)
    (ht : place.focus.token? = some t) :
    (ofSource flavor source).hitAt t.span.stop = some ⟨t.index, place, t.text⟩ := by
  have hfirst := TokenStream.isFirst_stop (Parse.mem_significant_of_focus hplace ht)
  rw [hitAt_eq_of_isFirst hplace ht hfirst]
  have htext : (Caret.ofPosition t.span.stop).textBefore t = t.text := by
    have hlength : t.column + t.charLength - t.column = t.text.toList.length := by
      rw [Nat.add_sub_cancel_left, Token.charLength]
    rw [Caret.textBefore, Caret.ofPosition, Token.span, hlength, List.take_length, String.ofList_toList]
  rw [htext]

/-- **A caret on a token of a node is found within the node**, unless the token is the first there. -/
theorem exists_hitAt_within {p : Place}
    (hp : p ∈ (Place.root (QuestScript.parse flavor source).tree).descendants)
    (h : [u, t].Sublist p.focus.leaves) (hcontains : t.span.contains position = true) :
    ∃ hit, (ofSource flavor source).hitAt position = some hit ∧ hit.element ∈ p.descendants := by
  obtain ⟨before, after, hleaves⟩ := Place.leaves_infix hp
  have hsorted := TokenStream.pairwise_index_significant flavor source
  change (QuestScript.parse flavor source).stream.significant.Pairwise _ at hsorted
  rw [← Parse.leaves_tree, ← hleaves] at hsorted
  have hu : u ∈ p.focus.leaves := h.subset List.mem_cons_self
  have ht : t ∈ p.focus.leaves := h.subset (by simp)
  simp only [List.pairwise_append, List.mem_append] at hsorted
  have hut : u.index < t.index :=
    (List.pairwise_cons.mp (hsorted.1.2.1.sublist h)).1 t List.mem_cons_self
  have hmem : ∀ v ∈ p.focus.leaves, v ∈ (TokenStream.ofSource flavor source).significant := fun v hv => by
    show v ∈ (QuestScript.parse flavor source).stream.significant
    rw [← Parse.leaves_tree, ← hleaves]
    exact List.mem_append_left _ (List.mem_append_right _ hv)
  have htokens : ∀ v ∈ (TokenStream.ofSource flavor source).significant,
      v ∈ (TokenStream.ofSource flavor source).tokens := fun v hv =>
    TokenStream.mem_tokens_of_mem_significant hv
  have htin : (Caret.ofPosition position).isIn t = true := by
    rw [Caret.isIn_ofPosition (htokens t (hmem t ht)), hcontains]
  cases hfind : (TokenStream.ofSource flavor source).significant.find? (Caret.ofPosition position).isIn with
  | none => exact absurd htin (List.find?_eq_none.mp hfind t (hmem t ht))
  | some v =>
    have hfirst := Caret.isFirst_of_find? (TokenStream.pairwise_index_significant flavor source) hfind
    have hvt := hfirst.le t (hmem t ht) htin
    -- The first token at the caret is not before the node: `u` would be between it and `t`.
    have huv : u.index ≤ v.index := by
      by_contra hlt
      have hout := Caret.not_isIn_of_between (htokens v hfirst.mem) (htokens u (hmem u hu))
        (htokens t (hmem t ht)) (by omega) hut hfirst.isIn
      rw [htin] at hout
      cases hout
    have hv : v ∈ p.focus.leaves := by
      have hv : v ∈ (QuestScript.parse flavor source).stream.significant := hfirst.mem
      rw [← Parse.leaves_tree, ← hleaves, List.mem_append, List.mem_append] at hv
      rcases hv with (hv | hv) | hv
      · have hlt := hsorted.1.2.2 v hv u hu
        omega
      · exact hv
      · have hlt := hsorted.2.2 t (.inr ht) v hv
        omega
    rw [← Place.tokens_within p.path] at hv
    obtain ⟨place, hplace, htoken⟩ := List.mem_filterMap.mp hv
    have hroot := Place.within_trans [] _ p hp place hplace
    exact ⟨_, hitAt_eq_of_isFirst hroot htoken hfirst, hplace⟩

end Analysis

end Source

end QuestScript
