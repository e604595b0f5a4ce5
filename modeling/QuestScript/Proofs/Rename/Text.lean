import Mathlib.Data.List.Perm.Subperm
import QuestScript.Proofs.Fix.Splice

/-! # Names written anew

Where a word stands another word of its kind may stand as well: the lexer finds all lexemes around it
again (`Lexeme.ofText_respelled`). So a name may be written in place of any names of a document at
once, and all other tokens stay what they are (`TokenStream.tokens_respell`). -/

namespace QuestScript

open Lexeme

/-! ### Words in place of words -/

namespace Lexeme
variable {flavor : Flavor} {k : TokenKind} {ls ms : List Lexeme} {text tail tail' : List Char}

/-- The second lexeme may stand in place of the first: it is the same, or both are words of one
kind. -/
def Respells (flavor : Flavor) (l m : Lexeme) : Prop :=
  m = l ∨ l.kind.isWord = true ∧ m.kind = l.kind ∧ IsWhole flavor m

theorem not_isBlank_of_startsWord {c : Char} (h : startsWord c = true) : isBlank c = false := by
  have hother : ∀ d : Char, startsWord d = false → c ≠ d := by
    rintro d hd rfl
    rw [h] at hd
    cases hd
  simp [isBlank, hother ' ' (by decide), hother '\t' (by decide), hother '\r' (by decide),
    hother '\n' (by decide), hother '\x0c' (by decide)]

theorem Closes.of_startsWord {c d : Char} (h : Closes k (c :: tail)) (hc : startsWord c = true)
    (hd : startsWord d = true) : Closes k (d :: tail') := by
  by_cases hk : k = .whitespace
  · subst hk
    rintro _ ⟨⟩
    exact not_isBlank_of_startsWord hd
  · refine (closes_of_startsWord hc (.inr h) ?_).resolve_left hk
    rintro _ ⟨⟩
    exact not_isDigit_of_startsWord hd

theorem Respells.isWhole {l m : Lexeme} (h : Respells flavor l m) (hl : IsWhole flavor l) :
    IsWhole flavor m ∧ m.kind = l.kind := by
  rcases h with rfl | ⟨-, hkind, hm⟩
  · exact ⟨hl, rfl⟩
  · exact ⟨hm, hkind⟩

theorem closes_respelled (h : List.Forall₂ (Respells flavor) ls ms)
    (hls : ∀ l ∈ ls, IsWhole flavor l) (hk : Closes k (chars ls)) : Closes k (chars ms) := by
  cases h with
  | nil => exact hk
  | cons hlm _ =>
    have hl := hls _ List.mem_cons_self
    rw [chars_cons] at hk ⊢
    rcases hlm with rfl | ⟨hword, hkind, hm⟩
    · rwa [closes_congr (head?_append_of_ne_nil hl.text_ne_nil _ _)]
    · obtain ⟨c, _, hltext, hc⟩ := startsWord_of_isWord hl hword
      obtain ⟨d, _, hmtext, hd⟩ := startsWord_of_isWord hm (hkind ▸ hword)
      rw [hltext] at hk
      rw [hmtext]
      exact hk.of_startsWord hc hd

/-- **The lexer finds words that are written in place of others**, and all lexemes around them. -/
theorem ofText_respelled (hknown : ∀ l ∈ ofText flavor text, l.kind ≠ .unknown)
    (h : List.Forall₂ (Respells flavor) (ofText flavor text) ms) : ofText flavor (chars ms) = ms := by
  generalize hls : ofText flavor text = ls at hknown h
  induction h generalizing text with
  | nil => exact ofText.eq_1 flavor
  | @cons l m ls ms hlm hrest ih =>
    obtain ⟨hl, hcloses, htail⟩ := isWhole_of_ofText hls (hknown l List.mem_cons_self)
    rw [List.forall_mem_cons] at hknown
    have hwhole : ∀ l ∈ ls, IsWhole flavor l := fun l hmem =>
      isWhole_of_mem (htail.symm ▸ hmem) (hknown.2 l hmem)
    obtain ⟨hm, hkind⟩ := hlm.isWhole hl
    rw [← hkind] at hcloses
    rw [chars_cons, hm.ofText_append (hkind.symm ▸ hknown.1) (closes_respelled hrest hwhole hcloses),
      ih htail hknown.2]

end Lexeme

/-! ### Edits of tokens -/

theorem filter_mem_of_sublist {β : Type} [DecidableEq β] {xs ys : List β} (h : xs.Sublist ys)
    (hys : ys.Nodup) : ys.filter (· ∈ xs) = xs := by
  have hself : xs.filter (· ∈ xs) = xs := List.filter_eq_self.mpr fun x hx => decide_eq_true hx
  have hsub := h.filter (· ∈ xs)
  rw [hself] at hsub
  have hsubset : ys.filter (· ∈ xs) ⊆ xs := fun x hx => of_decide_eq_true (List.mem_filter.mp hx).2
  exact (hsub.eq_of_length_le (List.subperm_of_subset (hys.filter _) hsubset).length_le).symm

namespace TokenStream
variable {flavor : Flavor} {source name : String} {ts : List Token} {ls : List Lexeme}

/-- The lexeme of a token, with the name in place of its text if the token is in the list. -/
def respell (ts : List Token) (name : String) (t : Token) : Lexeme :=
  if t ∈ ts then ⟨t.kind, name.toList⟩ else t.lexeme

/-- **Tokens start one after the other.** -/
theorem pairwise_start (flavor : Flavor) (source : String) :
    (ofSource flavor source).document.Pairwise (·.span.start < ·.span.start) := by
  rw [document_ofSource]
  suffices h : ∀ after before, placed .start 0 (ofText flavor source.toList) = before ++ after →
      after.Pairwise (·.span.start < ·.span.start) from h _ [] rfl
  intro after
  induction after with
  | nil => exact fun _ _ => List.Pairwise.nil
  | cons t after ih =>
    intro before h
    refine List.pairwise_cons.mpr ⟨fun u hu => ?_, ih (before ++ [t]) (by simp [h])⟩
    obtain ⟨between, rest, rfl⟩ := List.append_of_mem hu
    have hu' : placed .start 0 (ofText flavor source.toList) =
        (before ++ t :: between) ++ u :: rest := by simp [h]
    have htext : t.lexeme.text ≠ [] :=
      Lexeme.text_ne_nil (lexeme_of_mem_placed (show t ∈ placed .start 0 _ by rw [h]; simp))
    rw [start_eq h, start_eq hu', List.map_append, List.map_cons, chars_append, chars_cons]
    exact Position.lt_after_append _ (List.append_ne_nil_of_left_ne_nil htext _)

/-- Edits of the last tokens of a document leave what is before them. -/
theorem foldr_names (name : String) (before after : List Token) (h : placed .start 0 ls = before ++ after)
    (hline : ∀ t ∈ after, t ∈ ts → '\n' ∉ t.text.toList) :
    ((after.filter (· ∈ ts)).map fun t => (⟨t.span, name⟩ : TextEdit)).foldr
        (fun edit text => TextEdit.apply text edit)
        (chars (before.map Token.lexeme) ++ chars (after.map Token.lexeme)) =
      chars (before.map Token.lexeme) ++ chars (after.map (respell ts name)) := by
  induction after generalizing before with
  | nil => rfl
  | cons t after ih =>
    rw [List.forall_mem_cons] at hline
    have ih := ih (before ++ [t]) (by rw [h, List.append_assoc]; rfl) hline.2
    rw [List.map_append, chars_append, List.append_assoc, List.append_assoc, List.map_singleton,
      chars_cons, chars_nil, List.append_nil, ← chars_cons] at ih
    rw [List.map_cons, List.map_cons, chars_cons (respell ts name t)]
    by_cases ht : t ∈ ts
    · rw [List.filter_cons_of_pos (by simpa using ht), List.map_cons, List.foldr_cons, ih,
        TextEdit.apply_eq (span_eq h (hline.1 ht)), respell, if_pos ht]
    · rw [List.filter_cons_of_neg (by simpa using ht), ih, respell, if_neg ht]

theorem toList_applyAll_names (hts : ts.Sublist (ofSource flavor source).document)
    (hline : ∀ t ∈ ts, '\n' ∉ t.text.toList) :
    (TextEdit.applyAll source (ts.map fun t => ⟨t.span, name⟩)).toList =
      chars ((ofSource flavor source).document.map (respell ts name)) := by
  have hstarts : (ts.map fun t => (⟨t.span, name⟩ : TextEdit)).Pairwise
      (·.range.start < ·.range.start) :=
    List.pairwise_map.mpr ((pairwise_start flavor source).sublist hts)
  have hnodup : (ofSource flavor source).document.Nodup := (nodup_tokens flavor source).filter _
  have hsource : source.toList = chars ((ofSource flavor source).document.map Token.lexeme) := by
    rw [document_ofSource, map_placed, chars_ofText]
  have hall := foldr_names name [] (ofSource flavor source).document
    (document_ofSource flavor source).symm fun t _ ht => hline t ht
  rw [filter_mem_of_sublist hts hnodup] at hall
  rw [TextEdit.toList_applyAll_of_perm hstarts (List.Perm.refl _), hsource]
  exact hall

/-- **A name is written in place of names**: the tokens of the document are what they were but for
the text of these. -/
theorem tokens_respell (hknown : (ofSource flavor source).unknown = [])
    (hname : ofText flavor name.toList = [⟨.identifier, name.toList⟩])
    (hts : ts.Sublist (ofSource flavor source).document) (hkind : ∀ t ∈ ts, t.kind = .identifier) :
    (ofSource flavor (TextEdit.applyAll source (ts.map fun t => ⟨t.span, name⟩))).tokens.map
        (fun t => (t.kind, t.text)) =
      (ofSource flavor source).tokens.map fun t => (t.kind, if t ∈ ts then name else t.text) := by
  have hknown := known_of_unknown_eq_nil hknown
  have hlexemes : (ofSource flavor source).document.map Token.lexeme =
      ofText flavor source.toList := by
    rw [document_ofSource, map_placed]
  have hmem : ∀ t ∈ (ofSource flavor source).document, t.lexeme ∈ ofText flavor source.toList :=
    fun t ht => hlexemes ▸ List.mem_map_of_mem ht
  have hline : ∀ t ∈ ts, '\n' ∉ t.text.toList := fun t ht => by
    refine newline_notMem_of_isSignificant hknown (hmem t (hts.subset ht)) ?_
    rw [Token.isSignificant, Token.isHidden, hkind t ht]
    rfl
  have hrespells : List.Forall₂ (Respells flavor) (ofText flavor source.toList)
      ((ofSource flavor source).document.map (respell ts name)) := by
    rw [← hlexemes, List.forall₂_map_left_iff, List.forall₂_map_right_iff, List.forall₂_same]
    intro t ht
    rw [respell]
    split
    · rename_i hmem
      have hwhole := (isWhole_of_ofText hname (by simp)).1
      rw [Respells, Token.lexeme, hkind t hmem]
      exact .inr ⟨rfl, rfl, hwhole⟩
    · exact .inl rfl
  have hnew : ofText flavor (TextEdit.applyAll source (ts.map fun t => ⟨t.span, name⟩)).toList =
      (ofSource flavor source).document.map (respell ts name) := by
    rw [toList_applyAll_names hts hline]
    exact ofText_respelled hknown hrespells
  have hlexeme : ∀ us : List Token, us.map (fun t => (t.kind, t.text)) =
      (us.map Token.lexeme).map fun l => (l.kind, String.ofList l.text) := fun us => by
    rw [List.map_map]
    exact List.map_congr_left fun t _ => by simp [Token.lexeme]
  rw [tokens_eq_document_append, tokens_eq_document_append, List.map_append, List.map_append]
  congr 1
  · rw [hlexeme, document_ofSource, map_placed, hnew, List.map_map]
    refine List.map_congr_left fun t _ => ?_
    rw [Function.comp_apply, respell]
    split <;> simp [Token.lexeme]
  · have hend : endToken (Cursor.start.advance source.toList)
        (ofText flavor source.toList).length ∉ ts := fun h => by cases hkind _ h
    simp only [List.map_singleton, if_neg hend]
    rfl

end TokenStream

end QuestScript
