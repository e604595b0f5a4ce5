import QuestScript.Token.Stream
import Mathlib.Data.List.Nodup

/-! # The places of tokens

The tokens of a document stand one after the other: `placed p i ls` are the tokens of the lexemes
`ls` that follow the place `p`, where `i` tokens stand before. Each starts at the number of bytes
before it (`placed_eq_append`, `offset_advance`), so the offsets increase (`pairwise_offset_tokens`) and
the token that starts at an offset is the only one there (`atOffset?_offset`). -/

namespace QuestScript

/-! ### Lexemes -/

namespace Lexeme

theorem reach_fst_ne_endOfInput (flavor : Flavor) (c : Char) (text : List Char) :
    (reach flavor c text).1 ≠ .endOfInput := by
  unfold reach
  split_ifs
  · simp
  · unfold slashReach
    split
    · simp
    · dsimp only; split <;> simp
    · simp
  · dsimp only; split <;> simp
  · simp
  · dsimp only [wordKind]; split <;> simp
  · unfold punctuation?; split <;> simp

theorem kind_ne_endOfInput {flavor : Flavor} {text : List Char} {l : Lexeme}
    (h : l ∈ ofText flavor text) : l.kind ≠ .endOfInput := by
  fun_induction ofText flavor text with
  | case1 => simp at h
  | case2 c text kind n hr ih =>
    rcases List.mem_cons.mp h with rfl | h
    · have := reach_fst_ne_endOfInput flavor c text
      rwa [hr] at this
    · exact ih h

theorem text_ne_nil {flavor : Flavor} {text : List Char} {l : Lexeme}
    (h : l ∈ ofText flavor text) : l.text ≠ [] := by
  fun_induction ofText flavor text with
  | case1 => simp at h
  | case2 c text kind n hr ih =>
    rcases List.mem_cons.mp h with rfl | h
    · simp
    · exact ih h

end Lexeme

theorem byteLength_pos {text : List Char} (h : text ≠ []) : 0 < byteLength text := by
  obtain ⟨c, cs, rfl⟩ := List.exists_cons_of_ne_nil h
  have := c.utf8Size_pos
  rw [byteLength_cons]
  omega

/-- What a token is and its characters. -/
def Token.lexeme (t : Token) : Lexeme := ⟨t.kind, t.text.toList⟩

/-! ### Cursors -/

namespace Cursor

@[simp] theorem advance_nil (p : Cursor) : p.advance [] = p := rfl

@[simp] theorem advance_cons (p : Cursor) (c : Char) (text : List Char) :
    p.advance (c :: text) = (p.step c).advance text := rfl

theorem advance_append (p : Cursor) (s t : List Char) :
    p.advance (s ++ t) = (p.advance s).advance t := by
  simp [advance, List.foldl_append]

theorem offset_step (p : Cursor) (c : Char) : (p.step c).offset = p.offset + c.utf8Size := by
  unfold step; split <;> rfl

theorem offset_advance (p : Cursor) (text : List Char) :
    (p.advance text).offset = p.offset + byteLength text := by
  induction text generalizing p with
  | nil => simp
  | cons c text ih => rw [advance_cons, ih, offset_step, byteLength_cons, Nat.add_assoc]

end Cursor

/-! ### Tokens in their places -/

namespace TokenStream

/-- The tokens of lexemes that follow a place, where `index` tokens stand before it. -/
def placed (p : Cursor) (index : Nat) : List Lexeme → List Token
  | [] => []
  | l :: ls =>
    ⟨l.kind, String.ofList l.text, p.offset, p.line, p.column, index⟩ ::
      placed (p.advance l.text) (index + 1) ls

/-- The token that marks the end of the document at a place. -/
def endToken (p : Cursor) (index : Nat) : Token :=
  ⟨.endOfInput, endText, p.offset, p.line, p.column, index⟩

theorem place_eq (p : Cursor) (index : Nat) (ls : List Lexeme) :
    place p index ls =
      placed p index ls ++ [endToken (p.advance (ls.flatMap Lexeme.text)) (index + ls.length)] := by
  induction ls generalizing p index with
  | nil => rfl
  | cons l ls ih =>
    rw [place, ih, placed, List.flatMap_cons, Cursor.advance_append, List.length_cons,
      List.cons_append, Nat.add_assoc, Nat.add_comm 1]

theorem map_placed (p : Cursor) (index : Nat) (ls : List Lexeme) :
    (placed p index ls).map Token.lexeme = ls := by
  induction ls generalizing p index with
  | nil => rfl
  | cons l ls ih => rw [placed, List.map_cons, ih, Token.lexeme, String.toList_ofList]

theorem length_placed (p : Cursor) (index : Nat) (ls : List Lexeme) :
    (placed p index ls).length = ls.length := by
  rw [← List.length_map (f := Token.lexeme), map_placed]

theorem lexeme_of_mem_placed {p : Cursor} {index : Nat} {ls : List Lexeme} {t : Token}
    (h : t ∈ placed p index ls) : t.lexeme ∈ ls := by
  have := List.mem_map_of_mem (f := Token.lexeme) h
  rwa [map_placed] at this

theorem placed_eq_append {p : Cursor} {index : Nat} {ls : List Lexeme} {before after : List Token}
    {t : Token} (h : placed p index ls = before ++ t :: after) :
    ∃ ls₁ l ls₂, ls = ls₁ ++ l :: ls₂ ∧ placed p index ls₁ = before ∧
      t = ⟨l.kind, String.ofList l.text, (p.advance (ls₁.flatMap Lexeme.text)).offset,
        (p.advance (ls₁.flatMap Lexeme.text)).line, (p.advance (ls₁.flatMap Lexeme.text)).column,
        index + ls₁.length⟩ := by
  induction ls generalizing p index before with
  | nil => simp [placed] at h
  | cons l ls ih =>
    rw [placed] at h
    cases before with
    | nil =>
      obtain ⟨ht, -⟩ := List.cons.inj h
      exact ⟨[], l, ls, rfl, rfl, by rw [← ht]; simp⟩
    | cons b before =>
      obtain ⟨hb, h⟩ := List.cons.inj h
      obtain ⟨ls₁, m, ls₂, rfl, hp, ht⟩ := ih h
      refine ⟨l :: ls₁, m, ls₂, rfl, by rw [placed, hp, hb], ?_⟩
      rw [ht, List.flatMap_cons, Cursor.advance_append, List.length_cons, Nat.add_assoc,
        Nat.add_comm 1]

theorem index_eq {ls : List Lexeme} {before after : List Token} {t : Token}
    (h : placed .start 0 ls = before ++ t :: after) : t.index = before.length := by
  obtain ⟨ls₁, l, ls₂, -, hbefore, rfl⟩ := placed_eq_append h
  rw [← hbefore, length_placed]
  exact Nat.zero_add _

theorem le_offset_placed {p : Cursor} {index : Nat} {ls : List Lexeme} {t : Token}
    (h : t ∈ placed p index ls) :
    p.offset ≤ t.offset ∧ t.endOffset ≤ (p.advance (ls.flatMap Lexeme.text)).offset := by
  obtain ⟨before, after, h⟩ := List.append_of_mem h
  obtain ⟨ls₁, l, ls₂, rfl, -, rfl⟩ := placed_eq_append h
  simp only [Token.endOffset, Cursor.offset_advance, List.flatMap_append, List.flatMap_cons,
    byteLength_append, String.toList_ofList]
  omega

theorem pairwise_offset_placed (p : Cursor) (index : Nat) {ls : List Lexeme}
    (h : ∀ l ∈ ls, l.text ≠ []) : (placed p index ls).Pairwise (·.offset < ·.offset) := by
  induction ls generalizing p index with
  | nil => exact List.Pairwise.nil
  | cons l ls ih =>
    rw [placed, List.pairwise_cons]
    refine ⟨fun t ht => ?_, ih _ _ fun m hm => h m (by simp [hm])⟩
    have hl := byteLength_pos (h l (by simp))
    have ht := (le_offset_placed ht).1
    rw [Cursor.offset_advance] at ht
    show p.offset < t.offset
    omega

/-! ### The tokens of a document -/

section Document
variable (flavor : Flavor) (source : String)

theorem tokens_ofSource :
    (ofSource flavor source).tokens = placed .start 0 (Lexeme.ofText flavor source.toList) ++
      [endToken (Cursor.start.advance source.toList)
        (Lexeme.ofText flavor source.toList).length] := by
  rw [ofSource, place_eq, Lexeme.flatMap_ofText, Nat.zero_add]

theorem isEnd_placed {p : Cursor} {index : Nat} {text : List Char} {t : Token}
    (h : t ∈ placed p index (Lexeme.ofText flavor text)) : t.isEnd = false := by
  have hkind : t.kind ≠ .endOfInput := Lexeme.kind_ne_endOfInput (lexeme_of_mem_placed h)
  simpa [Token.isEnd] using hkind

theorem document_ofSource :
    (ofSource flavor source).document = placed .start 0 (Lexeme.ofText flavor source.toList) := by
  rw [document, tokens_ofSource, List.filter_append]
  have hend : (endToken (Cursor.start.advance source.toList)
      (Lexeme.ofText flavor source.toList).length).isEnd = true := rfl
  rw [List.filter_eq_self.mpr fun t ht => by rw [isEnd_placed flavor ht]; rfl,
    List.filter_cons_of_neg (by rw [hend]; simp), List.filter_nil, List.append_nil]

theorem tokens_eq_document_append :
    (ofSource flavor source).tokens = (ofSource flavor source).document ++
      [endToken (Cursor.start.advance source.toList)
        (Lexeme.ofText flavor source.toList).length] := by
  rw [tokens_ofSource, document_ofSource]

theorem document_eq_dropLast :
    (ofSource flavor source).document = (ofSource flavor source).tokens.dropLast := by
  rw [tokens_eq_document_append, List.dropLast_concat]

theorem mem_tokens_of_mem_document {s : TokenStream} {t : Token} (h : t ∈ s.document) :
    t ∈ s.tokens :=
  (List.mem_filter.mp h).1

/-- **The offsets of the tokens increase.** -/
theorem pairwise_offset_tokens :
    (ofSource flavor source).tokens.Pairwise (·.offset < ·.offset) := by
  rw [tokens_ofSource, List.pairwise_append]
  refine ⟨pairwise_offset_placed _ _ fun l => Lexeme.text_ne_nil, List.pairwise_singleton _ _, ?_⟩
  intro t ht u hu
  have hpos : 0 < byteLength t.text.toList :=
    byteLength_pos (Lexeme.text_ne_nil (lexeme_of_mem_placed ht))
  have hle := (le_offset_placed ht).2
  rw [Lexeme.flatMap_ofText] at hle
  rw [List.mem_singleton.mp hu]
  show t.offset < (Cursor.start.advance source.toList).offset
  unfold Token.endOffset at hle
  omega

theorem nodup_tokens : (ofSource flavor source).tokens.Nodup := by
  refine (pairwise_offset_tokens flavor source).imp fun {t u} h => ?_
  rintro rfl
  exact Nat.lt_irrefl _ h

theorem map_index_place (p : Cursor) (index : Nat) (ls : List Lexeme) :
    (place p index ls).map (·.index) = List.range' index (ls.length + 1) := by
  induction ls generalizing p index with
  | nil => rfl
  | cons l ls ih =>
    rw [place, List.map_cons, ih]
    exact (List.range'_succ ..).symm

/-- **The tokens are numbered from zero.** -/
theorem map_index_tokens : (ofSource flavor source).tokens.map (·.index) =
    List.range' 0 (ofSource flavor source).tokens.length := by
  have hindex := map_index_place .start 0 (Lexeme.ofText flavor source.toList)
  have hlength := congrArg List.length hindex
  rw [List.length_map, List.length_range'] at hlength
  rw [ofSource, hindex, hlength]

variable {flavor source}

theorem eq_of_offset_eq {t u : Token} (ht : t ∈ (ofSource flavor source).tokens)
    (hu : u ∈ (ofSource flavor source).tokens) (h : t.offset = u.offset) : t = u := by
  have hnodup : ((ofSource flavor source).tokens.map (·.offset)).Nodup :=
    List.pairwise_map.mpr ((pairwise_offset_tokens flavor source).imp Nat.ne_of_lt)
  exact List.inj_on_of_nodup_map hnodup ht hu h

/-- **The token that starts at an offset is found there.** -/
theorem atOffset?_offset {t : Token} (h : t ∈ (ofSource flavor source).tokens) :
    (ofSource flavor source).atOffset? t.offset = some t := by
  have hfind : (ofSource flavor source).atOffset? t.offset =
      (ofSource flavor source).tokens.find? (·.offset == t.offset) := by
    rw [atOffset?, List.find?_eq_bind_findIdx?_getElem?]; rfl
  rw [hfind]
  cases hu : (ofSource flavor source).tokens.find? (·.offset == t.offset) with
  | none => simpa using List.find?_eq_none.mp hu t h
  | some u =>
    have hoffset : u.offset = t.offset := by simpa using List.find?_some hu
    rw [eq_of_offset_eq (List.mem_of_find?_eq_some hu) h hoffset]

theorem map_text_document :
    String.join ((ofSource flavor source).document.map (·.text)) = source := by
  have hmap := map_placed .start 0 (Lexeme.ofText flavor source.toList)
  have htext := Lexeme.flatMap_ofText flavor source.toList
  rw [← hmap, List.flatMap_map] at htext
  rw [← String.toList_inj, String.toList_join, List.flatMap_map, document_ofSource]
  exact htext

end Document

end TokenStream

end QuestScript
