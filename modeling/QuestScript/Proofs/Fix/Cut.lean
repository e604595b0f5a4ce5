import QuestScript.Proofs.Fix.Front
import QuestScript.Proofs.Token.Ending

/-! # Cutting a document beside its tokens

Whatever is wrong with a document, it may be cut right behind a significant token before anything that
closes the token (`ofText_behind`), and before its first significant token, or among the spaces and tabs
there, before a word (`exists_cut_before`): the lexemes on the left stay as they are. -/

namespace QuestScript

namespace Lexeme

/-- The lexemes that the grammar sees. -/
def significant (ls : List Lexeme) : List Lexeme := ls.filter (!·.kind.isHidden)

variable {flavor : Flavor} {l t : Lexeme} {as bs : List Lexeme} {text tail tail' p w : List Char}

@[simp] theorem significant_append (ls ms : List Lexeme) :
    significant (ls ++ ms) = significant ls ++ significant ms :=
  List.filter_append ls ms

theorem significant_cons_of_visible (h : t.kind.isHidden = false) (ls : List Lexeme) :
    significant (t :: ls) = t :: significant ls :=
  List.filter_cons_of_pos (by simp [h])

theorem significant_eq_nil_iff : significant as = [] ↔ ∀ l ∈ as, l.kind.isHidden = true := by
  simp [significant, List.filter_eq_nil_iff]

theorem ne_unknown_of_isHidden {k : TokenKind} (h : k.isHidden = false) : k ≠ .unknown := by
  rintro rfl
  cases h

/-- The first character of a significant token ends no line, no comment and no string that is not
closed. -/
structure StartsToken (c : Char) : Prop where
  notLineEnd : isLineEnd c = false
  notBackslash : c ≠ '\\'
  notStar : c ≠ '*'

theorem startsToken_of_isIndent {c : Char} (h : isIndent c = true) : StartsToken c := by
  refine ⟨isLineEnd_of_isIndent h, ?_, ?_⟩ <;> rintro rfl <;> exact absurd h (by decide)

theorem IsWhole.startsToken (h : IsWhole flavor t) (ht : t.kind.isHidden = false) :
    ∃ c rest, t.text = c :: rest ∧ StartsToken c := by
  obtain ⟨c, rest, htext, hreach⟩ := h
  have hkind : (reach flavor c rest).1.isHidden = false := by rw [hreach]; exact ht
  refine ⟨c, rest, htext, ⟨?_, ?_, ?_⟩⟩
  · refine Bool.eq_false_iff.mpr fun hend => ?_
    have hblank : Lexeme.isBlank c = true := by
      rw [isLineEnd, Bool.or_eq_true, beq_iff_eq, beq_iff_eq] at hend
      rcases hend with rfl | rfl <;> decide
    rw [reach, if_pos hblank] at hkind
    cases hkind
  · rintro rfl
    cases hkind
  · rintro rfl
    cases hkind

theorem StartsToken.not_stopsString {c : Char} (h : StartsToken c) (hc : c ∈ tail.head?) :
    ¬ StopsString tail := by
  intro hstops
  obtain ⟨rest, rfl⟩ := List.head?_eq_some_iff.mp hc
  rcases hstops c rest rfl with hend | ⟨hslash, -⟩
  · rw [h.notLineEnd] at hend
    cases hend
  · exact h.notBackslash hslash

theorem StartsToken.not_comment {c : Char} (h : StartsToken c) (hc : c ∈ tail.head?) :
    ¬ (tail = [] ∨ tail = ['*']) := by
  rintro (rfl | rfl)
  · cases hc
  · cases hc
    exact h.notStar rfl

/-! ### Behind a token -/

/-- **A document may be cut right behind a token** before anything that closes it. -/
theorem ofText_behind (h : ofText flavor text = as ++ t :: bs) (ht : t.kind.isHidden = false)
    (hcloses : Closes t.kind tail) :
    ofText flavor (chars as ++ (t.text ++ tail)) = as ++ t :: ofText flavor tail := by
  have hknown := ne_unknown_of_isHidden ht
  have hwhole : IsWhole flavor t := ((ends_of_ofText h).isWhole hknown).1
  obtain ⟨c, rest, htext, hc⟩ := hwhole.startsToken ht
  have halike : Alike (chars (t :: bs)) (t.text ++ tail) := by
    rw [chars_cons, htext]
    exact ⟨rfl, fun hstar => absurd (.inr hstar) (hc.not_comment rfl),
      fun hstops => absurd hstops (hc.not_stopsString rfl)⟩
  rw [ofText_replace_alike (ofText_split h) halike, hwhole.ofText_append hknown hcloses]

/-! ### Before the first token -/

/-- What is hidden before a token, or before a space or a tab, may stand before a word. -/
theorem Ends.before_word (h : Ends flavor l tail) (hl : l.kind.isHidden = true) {c d : Char}
    (hc : c ∈ tail.head?) (hstarts : StartsToken c) (hd : d ∈ tail'.head?) (hword : startsWord d = true) :
    Ends flavor l tail' := by
  by_cases hk : l.kind = .unknown
  · cases h.unknown hk with
    | comment hend => exact absurd hend (hstarts.not_comment hc)
    | string hstops hnew => exact absurd hstops (hstarts.not_stopsString hc)
    | slash htext hstops hnew =>
      refine hnew _ fun e he => ?_
      obtain rfl := Option.mem_unique hd he
      exact ⟨ne_of_startsWord (by decide) hword, ne_of_startsWord (by decide) hword⟩
    | single htext hnew => exact hnew _
  · obtain ⟨hwhole, hcloses⟩ := h.isWhole hk
    refine hwhole.ends hk ?_
    cases hkind : l.kind with
    | whitespace =>
      intro e he
      obtain rfl := Option.mem_unique hd he
      exact isBlank_of_startsWord hword
    | lineComment =>
      rw [hkind] at hcloses
      have hend := hcloses c hc
      rw [hstarts.notLineEnd] at hend
      cases hend
    | blockComment => trivial
    | unknown => exact absurd hkind hk
    | _ =>
      rw [hkind] at hl
      cases hl

/-- **A document may be cut before a token, a space or a tab** that hidden lexemes stand before. -/
theorem ofText_before (h : ofText flavor text = as ++ bs) (has : ∀ l ∈ as, l.kind.isHidden = true)
    {c d : Char} (hc : c ∈ (chars bs).head?) (hstarts : StartsToken c) (hd : d ∈ tail.head?)
    (hword : startsWord d = true) : ofText flavor (chars as ++ tail) = as ++ ofText flavor tail := by
  refine ofText_replace (ofText_split h) (fun hnil => by rw [hnil] at hc; cases hc) (fun e he hend => ?_)
    fun l hl hends => hends.before_word (has l (List.mem_of_mem_getLast? hl)) hc hstarts hd hword
  obtain rfl := Option.mem_unique hc he
  rw [hstarts.notLineEnd] at hend
  cases hend

theorem exists_of_chars_eq_append (h : chars as = p ++ w) (hw : w ≠ []) :
    ∃ front l back m u, as = front ++ l :: back ∧ p = chars front ++ m ∧ l.text = m ++ u ∧ u ≠ [] ∧
      w = u ++ chars back := by
  induction as generalizing p with
  | nil => exact absurd (List.append_eq_nil_iff.mp h.symm).2 hw
  | cons a as ih =>
    rw [chars_cons] at h
    rcases List.append_eq_append_iff.mp h with ⟨q, rfl, hq⟩ | ⟨u, hu, rfl⟩
    · obtain ⟨front, l, back, m, u, rfl, rfl, hl, hu, rfl⟩ := ih hq
      exact ⟨a :: front, l, back, m, u, rfl, by simp, hl, hu, rfl⟩
    · by_cases hnil : u = []
      · subst hnil
        rw [List.append_nil] at hu
        obtain ⟨front, l, back, m, u, rfl, hm, hl, hu', hw'⟩ := ih (p := []) (by simp)
        refine ⟨a :: front, l, back, m, u, rfl, ?_, hl, hu', by simpa using hw'⟩
        rw [chars_cons, List.append_assoc, ← hm, List.append_nil, hu]
      · exact ⟨[], a, as, p, u, rfl, rfl, hu, hnil, rfl⟩

/-- Hidden lexemes of several characters that end in a space or a tab, and before a token, a space or a
tab, are blanks. -/
theorem Ends.kind_of_isIndent (h : Ends flavor l tail) (hl : l.kind.isHidden = true)
    (hlength : 2 ≤ l.text.length) {c e : Char} (he : e ∈ l.text.getLast?) (hindent : isIndent e = true)
    (hc : c ∈ tail.head?) (hstarts : StartsToken c) : l.kind = .whitespace := by
  by_cases hk : l.kind = .unknown
  · exfalso
    cases h.unknown hk with
    | comment hend => exact hstarts.not_comment hc hend
    | string hstops hnew => exact hstarts.not_stopsString hc hstops
    | slash htext => simp [htext] at hlength
    | single htext => omega
  · obtain ⟨hwhole, hcloses⟩ := h.isWhole hk
    have htrivia : l.kind.isTrivia = true := by
      have hbeq : (l.kind == TokenKind.unknown) = false := by simpa using hk
      rwa [TokenKind.isHidden, hbeq, Bool.or_false] at hl
    exact Lexeme.kind_of_isIndent hwhole htrivia he hindent hcloses hc hstarts.notLineEnd

/-- A document may be cut within hidden lexemes, before spaces and tabs that stand right before a token:
what is cut are blanks. -/
theorem ofText_within (h : ofText flavor text = as ++ l :: bs) (hl : l.kind.isHidden = true)
    (htext : l.text = p ++ w) (hp : p ≠ []) (hw : w ≠ []) (hindent : ∀ c ∈ w, isIndent c = true)
    {c d : Char} (hc : c ∈ (chars bs).head?) (hstarts : StartsToken c) (hd : d ∈ tail.head?)
    (hword : startsWord d = true) :
    ofText flavor (chars as ++ (p ++ tail)) = as ++ ⟨.whitespace, p⟩ :: ofText flavor tail := by
  have hends := ends_of_ofText h
  have hlast : w.getLast hw ∈ l.text.getLast? := by
    rw [htext, List.getLast?_append_of_ne_nil _ hw, List.getLast?_eq_some_getLast hw]
    rfl
  have hlength : 2 ≤ l.text.length := by
    have hppos := List.length_pos_of_ne_nil hp
    have hwpos := List.length_pos_of_ne_nil hw
    rw [htext, List.length_append]
    omega
  have hkind : l.kind = .whitespace :=
    hends.kind_of_isIndent hl hlength hlast (hindent _ (List.getLast_mem hw)) hc hstarts
  have hblank : ∀ b ∈ p, isBlank b = true := fun b hb =>
    (hends.isWhole (by simp [hkind])).1.isBlank hkind b (by simp [htext, hb])
  have hblanks : Ends flavor ⟨.whitespace, p⟩ tail := by
    refine (isWhole_blank hp hblank).ends (by simp) fun b hb => ?_
    obtain rfl := Option.mem_unique hd hb
    exact isBlank_of_startsWord hword
  have halike : Alike (chars (l :: bs)) (p ++ tail) := by
    rw [chars_cons, htext, List.append_assoc]
    refine .append hp (fun h => absurd (List.append_eq_nil_iff.mp h).1 hw) fun b hb hend => ?_
    obtain ⟨_, _, rfl⟩ := List.exists_cons_of_ne_nil hw
    cases hb
    rw [isLineEnd_of_isIndent (hindent b (by simp))] at hend
    cases hend
  rw [ofText_replace_alike (ofText_split h) halike, hblanks.ofText_append]

/-- **What is hidden before the first token may be cut** before spaces and tabs that stand right before
the token: what is left may stand before a word. -/
theorem exists_cut_before (h : ofText flavor text = as ++ t :: bs) (ht : t.kind.isHidden = false)
    (has : ∀ l ∈ as, l.kind.isHidden = true) (hp : chars as = p ++ w)
    (hw : ∀ c ∈ w, isIndent c = true) :
    ∃ ps, (∀ l ∈ ps, l.kind.isHidden = true) ∧ ∀ tail, ∀ d ∈ tail.head?, startsWord d = true →
      ofText flavor (p ++ tail) = ps ++ ofText flavor tail := by
  have hwhole : IsWhole flavor t := ((ends_of_ofText h).isWhole (ne_unknown_of_isHidden ht)).1
  obtain ⟨c, rest, htext, hc⟩ := hwhole.startsToken ht
  by_cases hnil : w = []
  · rw [hnil, List.append_nil] at hp
    refine ⟨as, has, fun tail d hd hword => ?_⟩
    rw [← hp]
    exact ofText_before h has (by rw [chars_cons, htext]; rfl) hc hd hword
  obtain ⟨front, l, back, m, u, rfl, rfl, hl, hu, rfl⟩ := exists_of_chars_eq_append hp hnil
  have hfront : ∀ a ∈ front, a.kind.isHidden = true := fun a ha => has a (by simp [ha])
  have hsplit : ofText flavor text = front ++ l :: (back ++ t :: bs) := by rw [h]; simp
  by_cases hm : m = []
  · subst hm
    obtain ⟨e, u', rfl⟩ := List.exists_cons_of_ne_nil hu
    refine ⟨front, hfront, fun tail d hd hword => ?_⟩
    rw [List.append_nil]
    refine ofText_before hsplit hfront ?_ (startsToken_of_isIndent (hw e (by simp))) hd hword
    rw [chars_cons, hl]
    rfl
  -- The cut is in the blanks right before the token.
  · have hnext : ∃ e ∈ (chars (back ++ t :: bs)).head?, StartsToken e := by
      rw [chars_append, chars_cons, htext]
      cases hback : chars back with
      | nil => exact ⟨c, rfl, hc⟩
      | cons e more => exact ⟨e, rfl, startsToken_of_isIndent (hw e (by simp [hback]))⟩
    obtain ⟨e, he, hstarts⟩ := hnext
    refine ⟨front ++ [⟨.whitespace, m⟩], ?_, fun tail d hd hword => ?_⟩
    · intro a ha
      rcases List.mem_append.mp ha with ha | ha
      · exact hfront a ha
      · rw [List.mem_singleton.mp ha]
        rfl
    · rw [List.append_assoc, List.append_assoc]
      exact ofText_within hsplit (has l (by simp)) hl hm hu (fun b hb => hw b (by simp [hb])) he hstarts
        hd hword

end Lexeme

/-! ### Documents -/

namespace TokenStream
variable {flavor : Flavor} {source : String} {us vs : List Token} {t : Token}
open Lexeme

theorem significant_map_lexeme (ts : List Token) :
    Lexeme.significant (ts.map Token.lexeme) = (ts.filter (·.isSignificant)).map Token.lexeme :=
  List.filter_map

theorem map_lexeme_significant (flavor : Flavor) (source : String) :
    (ofSource flavor source).significant.map Token.lexeme =
      Lexeme.significant (ofText flavor source.toList) := by
  have hlexemes := map_placed .start 0 (ofText flavor source.toList)
  rw [← document_ofSource] at hlexemes
  rw [← hlexemes, significant_map_lexeme]
  rfl

theorem isHidden_of_mem (h : t ∈ (ofSource flavor source).significant) :
    t.lexeme.kind.isHidden = false := by
  have hvisible : t.isHidden = false := by
    simpa [Token.isSignificant] using (List.mem_filter.mp h).2
  exact hvisible

/-- **A significant token stands among the lexemes of its document**, whatever is wrong with it. -/
theorem exists_lexeme (h : (ofSource flavor source).significant = us ++ t :: vs) :
    ∃ as bs, ofText flavor source.toList = as ++ t.lexeme :: bs ∧
      Lexeme.significant as = us.map Token.lexeme ∧ Lexeme.significant bs = vs.map Token.lexeme ∧
      t.span = ⟨Position.after (chars as), Position.after (chars as ++ t.text.toList)⟩ ∧
      ((ofSource flavor source).tokens.take t.index).flatMap (·.text.toList) = chars as := by
  have hmem : t ∈ (ofSource flavor source).significant := by simp [h]
  have hplaced : (placed .start 0 (ofText flavor source.toList)).filter (·.isSignificant) =
      us ++ t :: vs := by
    rw [← document_ofSource]
    exact h
  obtain ⟨ds, zs, hall, hds, hzs⟩ := List.filter_eq_append_iff.mp hplaced
  obtain ⟨hs, ws, rfl, hhs, -, hws⟩ := List.filter_eq_cons_iff.mp hzs
  have hsplit : placed .start 0 (ofText flavor source.toList) = (ds ++ hs) ++ t :: ws := by
    rw [hall, List.append_assoc]
  have hlexemes := congrArg (List.map Token.lexeme) hsplit
  rw [map_placed, List.map_append, List.map_cons] at hlexemes
  refine ⟨_, _, hlexemes, ?_, ?_, span_eq hsplit (newline_notMem hmem), ?_⟩
  · rw [significant_map_lexeme, List.filter_append, hds, List.filter_eq_nil_iff.mpr hhs,
      List.append_nil]
  · rw [significant_map_lexeme, hws]
  · rw [tokens_ofSource, hsplit, List.append_assoc, index_eq hsplit, List.take_left, chars,
      List.flatMap_map]
    rfl

end TokenStream

end QuestScript
