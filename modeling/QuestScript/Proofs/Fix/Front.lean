import QuestScript.Diagnostic.Semantic
import QuestScript.Proofs.Fix.Splice

/-! # Lexemes before the first word

A document may be cut among the blanks right before its first significant token (`exists_cut`), and
lexemes may be put there (`spells_insertFront`). -/

namespace QuestScript

open Lexeme

/-- A space or a tab. -/
def isIndent (c : Char) : Bool := c == ' ' || c == '\t'

namespace Lexeme
variable {flavor : Flavor} {l : Lexeme} {as bs : List Lexeme} {text tail : List Char}

theorem isBlank_of_isIndent {c : Char} (h : isIndent c = true) : isBlank c = true := by
  rw [isIndent, Bool.or_eq_true, beq_iff_eq, beq_iff_eq] at h
  rcases h with rfl | rfl <;> decide

theorem isLineEnd_of_isIndent {c : Char} (h : isIndent c = true) : isLineEnd c = false := by
  rw [isIndent, Bool.or_eq_true, beq_iff_eq, beq_iff_eq] at h
  rcases h with rfl | rfl <;> decide

/-- Trivia that end in a space or a tab, but not at the end of a line, are blanks. -/
theorem kind_of_isIndent (h : IsWhole flavor l) (htrivia : l.kind.isTrivia = true) {c d : Char}
    (hc : c ∈ l.text.getLast?) (hindent : isIndent c = true) (hcloses : Closes l.kind tail)
    (hd : d ∈ tail.head?) (hline : isLineEnd d = false) : l.kind = .whitespace := by
  cases hk : l.kind with
  | whitespace => rfl
  | lineComment =>
    rw [hk] at hcloses
    have hend := hcloses d hd
    rw [hline] at hend
    cases hend
  | blockComment =>
    rw [h.getLast_blockComment hk] at hc
    obtain rfl := Option.some.inj hc
    exact absurd hindent (by decide)
  | _ =>
    rw [hk] at htrivia
    cases htrivia

theorem isLineEnd_of_startsWord {c : Char} (h : startsWord c = true) : isLineEnd c = false := by
  by_contra hend
  rw [Bool.not_eq_false, isLineEnd, Bool.or_eq_true, beq_iff_eq, beq_iff_eq] at hend
  rcases hend with rfl | rfl <;> exact absurd h (by decide)

theorem mem_getLast?_append {β : Type} {xs ys zs ws : List β} (h : xs ++ ys = zs ++ ws)
    (hys : ys ≠ []) (hws : ws ≠ []) : ∃ x ∈ ws, x ∈ ys.getLast? := by
  have hlast := congrArg List.getLast? h
  rw [List.getLast?_append_of_ne_nil _ hys, List.getLast?_append_of_ne_nil _ hws] at hlast
  exact ⟨ws.getLast hws, List.getLast_mem hws, by rw [hlast, List.getLast?_eq_some_getLast hws]; rfl⟩

theorem closes_of_isIndent {k : TokenKind} (htrivia : k.isTrivia = true) {c : Char}
    (hc : c ∈ text.head?) (hindent : isIndent c = true) (h : k = .whitespace ∨ Closes k text) :
    k = .whitespace ∨ Closes k tail := by
  rcases h with h | h
  · exact .inl h
  · cases k with
    | whitespace => exact .inl rfl
    | lineComment =>
      have hend := h c hc
      rw [isLineEnd_of_isIndent hindent] at hend
      cases hend
    | blockComment => exact .inr trivial
    | _ => cases htrivia

theorem Separate.of_isIndent (h : Separate flavor as text) {c : Char} (hc : c ∈ text.head?)
    (hindent : isIndent c = true) (htrivia : ∀ m ∈ as, m.kind.isTrivia = true) :
    Separate flavor as tail :=
  h.of_closes fun m hm =>
    closes_of_isIndent (htrivia m (List.mem_of_mem_getLast? hm)) hc hindent

theorem separate_concat_blank {blanks : List Char} (h : Separate flavor as (blanks ++ text))
    (hne : blanks ≠ []) (hblank : ∀ c ∈ blanks, isBlank c = true) :
    Separate flavor (as ++ [⟨.whitespace, blanks⟩]) tail := by
  refine separate_append.mpr ⟨?_, ⟨isWhole_blank hne hblank, by simp⟩, .inl rfl, trivial⟩
  refine h.of_closes fun m _ hcloses => ?_
  rw [chars_cons, List.append_assoc]
  rwa [closes_congr (head?_append_of_ne_nil hne _ _)]

/-- Two blanks in a row would be one. -/
theorem isIndent_eq_false_of_ofText (hof : ofText flavor text = as ++ l :: bs)
    (hknown : ∀ m ∈ ofText flavor text, m.kind ≠ .unknown) (htrivia : l.kind.isTrivia = true)
    {c d : Char} (hc : c ∈ l.text.getLast?) (hindent : isIndent c = true)
    (hd : d ∈ (chars bs).head?) : isIndent d = false := by
  by_contra hnext
  rw [Bool.not_eq_false] at hnext
  have hmem : l ∈ ofText flavor text := by
    rw [hof]
    simp
  have hwhole : IsWhole flavor l := isWhole_of_mem hmem (hknown l hmem)
  have hcloses : Closes l.kind (chars bs) := closes_of_ofText hof hknown
  have hkind : l.kind = .whitespace :=
    kind_of_isIndent hwhole htrivia hc hindent hcloses hd (isLineEnd_of_isIndent hnext)
  rw [hkind] at hcloses
  have hno := hcloses d hd
  rw [isBlank_of_isIndent hnext] at hno
  cases hno

/-- **The blanks before a word may be cut** before spaces and tabs that stand right before the word:
what is left may stand before anything that does not start with a digit. -/
theorem exists_cut {p w : List Char} (hof : ofText flavor text = as ++ (l :: bs))
    (hknown : ∀ m ∈ ofText flavor text, m.kind ≠ .unknown) (hword : l.kind.isWord = true)
    (has : visible as = []) (hp : chars as = p ++ w) (hw : ∀ c ∈ w, isIndent c = true) :
    ∃ ps, chars ps = p ∧ visible ps = [] ∧
      ∀ tail, (∀ c ∈ tail.head?, isDigit c = false) → Separate flavor ps tail := by
  have hold := separate_ofText hknown
  rw [hof] at hold
  have htrivia : ∀ m ∈ as, m.kind.isTrivia = true := by
    intro m hm
    have := List.filter_eq_nil_iff.mp has m hm
    simpa using this
  have hfirst := (separate_append.mp hold).1
  obtain ⟨c, rest, htext, hc⟩ := startsWord_of_isWord (separate_append.mp hold).2.1.1 hword
  by_cases hempty : w = []
  · rw [hempty, List.append_nil] at hp
    refine ⟨as, hp, has, fun tail htail => ?_⟩
    rw [chars_cons, htext] at hfirst
    exact Separate.replace hfirst hc htail
  rcases List.eq_nil_or_concat as with rfl | ⟨front, last, hconcat⟩
  · have := congrArg List.length hp
    rw [chars_nil, List.length_append, List.length_nil] at this
    exact absurd (List.eq_nil_of_length_eq_zero (by omega)) hempty
  rw [List.concat_eq_append] at hconcat
  subst hconcat
  rw [chars_append, chars_cons, chars_nil, List.append_nil] at hp
  have hsplit : ofText flavor text = front ++ last :: (l :: bs) := by
    rw [hof]
    simp
  have hlast : IsWhole flavor last := (separate_append.mp hfirst).2.1.1
  have hfront : visible front = [] := by
    rw [visible_append] at has
    exact (List.append_eq_nil_iff.mp has).1
  have hfrontTrivia : ∀ m ∈ front, m.kind.isTrivia = true := fun m hm => htrivia m (by simp [hm])
  have hkind : last.kind = .whitespace := by
    obtain ⟨e, he, hmem⟩ := mem_getLast?_append hp hlast.text_ne_nil hempty
    have hhead : c ∈ (chars (l :: bs)).head? := by
      rw [chars_cons, htext]
      rfl
    exact kind_of_isIndent hlast (htrivia last (by simp)) hmem (hw e he)
      (closes_of_ofText hsplit hknown) hhead (isLineEnd_of_startsWord hc)
  have hbefore : Separate flavor front (last.text ++ chars (l :: bs)) := by
    have := (separate_append.mp hfirst).1
    rwa [chars_cons, chars_nil, List.append_nil, List.append_nil] at this
  obtain ⟨d, rest', hd⟩ := List.exists_cons_of_ne_nil hlast.text_ne_nil
  -- right before the last blanks
  have hwhole : isIndent d = true → ∀ tail, Separate flavor front tail := by
    intro hindent tail
    refine hbefore.of_isIndent ?_ hindent hfrontTrivia
    rw [hd]
    rfl
  rcases List.append_eq_append_iff.mp hp with ⟨m, rfl, hm⟩ | ⟨m, hm, rfl⟩
  · by_cases hnil : m = []
    · rw [hnil, List.nil_append] at hm
      rw [hnil, List.append_nil]
      have hindent : isIndent d = true := hw d (by rw [← hm, hd]; simp)
      exact ⟨front, rfl, hfront, fun tail _ => hwhole hindent tail⟩
    -- in the last blanks
    · have hblank : ∀ e ∈ m, isBlank e = true := by
        intro e he
        exact hlast.isBlank hkind e (by rw [hm]; simp [he])
      rw [hm, List.append_assoc] at hbefore
      refine ⟨front ++ [⟨.whitespace, m⟩], by simp, by rw [visible_append, hfront]; rfl, ?_⟩
      exact fun tail _ => separate_concat_blank hbefore hnil hblank
  · have hindent : isIndent d = true := hw d (by rw [hd]; simp)
    by_cases hnil : m = []
    · rw [hnil, List.append_nil] at hm
      exact ⟨front, hm, hfront, fun tail _ => hwhole hindent tail⟩
    -- before them there are no other blanks
    · exfalso
      rcases List.eq_nil_or_concat front with rfl | ⟨first, v, hconcat⟩
      · rw [chars_nil] at hm
        exact hnil (List.append_eq_nil_iff.mp hm.symm).2
      rw [List.concat_eq_append] at hconcat
      subst hconcat
      have hv : IsWhole flavor v := (separate_append.mp hbefore).2.1.1
      rw [chars_append, chars_cons, chars_nil, List.append_nil] at hm
      obtain ⟨e, he, hmem⟩ := mem_getLast?_append hm hv.text_ne_nil hnil
      have hdhead : d ∈ (chars (last :: l :: bs)).head? := by
        rw [chars_cons, hd]
        rfl
      have hsplit' : ofText flavor text = first ++ v :: (last :: l :: bs) := by
        rw [hsplit]
        simp
      have hno := isIndent_eq_false_of_ofText hsplit' hknown (htrivia v (by simp)) hmem
        (hw e (by simp [he])) hdhead
      rw [hindent] at hno
      cases hno

end Lexeme

theorem Position.exists_indent {before : List Char} {n : Nat}
    (hn : n ≤ (before.reverse.takeWhile isIndent).length) :
    ∃ p w, before = p ++ w ∧ (∀ c ∈ w, isIndent c = true) ∧
      Position.after p = ⟨(Position.after before).line, (Position.after before).column - n⟩ := by
  have hle : n ≤ before.length := by
    have := (List.takeWhile_prefix isIndent (l := before.reverse)).length_le
    rw [List.length_reverse] at this
    omega
  have hw : ∀ c ∈ before.drop (before.length - n), isIndent c = true := by
    intro c hc
    rw [← List.mem_reverse, List.reverse_drop, Nat.sub_sub_self hle] at hc
    have hbegins := List.prefix_of_prefix_length_le (List.take_prefix n before.reverse)
      (List.takeWhile_prefix isIndent) (by rw [List.length_take, List.length_reverse]; omega)
    exact List.mem_takeWhile_imp (hbegins.subset hc)
  refine ⟨before.take (before.length - n), _, (List.take_append_drop _ before).symm, hw, ?_⟩
  have hline : '\n' ∉ before.drop (before.length - n) := fun h => absurd (hw _ h) (by decide)
  have hafter : Position.after (before.take (before.length - n) ++ _) = _ :=
    Position.after_append hline
  rw [List.take_append_drop, List.length_drop] at hafter
  rw [hafter]
  dsimp only
  rw [Position.mk.injEq]
  omega

namespace TokenStream
variable {flavor : Flavor} {source : String} {vs : List Token} {t : Token}

/-- **Lexemes that may stand before anything are put before the first word**, before the blanks that
indent it. -/
theorem spells_insertFront (hknown : (ofSource flavor source).unknown = [])
    (h : (ofSource flavor source).significant = t :: vs) (hword : t.kind.isWord = true)
    {c : Checker} (hc : c.parse.stream = ofSource flavor source) {ns : List Lexeme}
    (hns : ∀ tail, Separate flavor ns tail)
    (hhead : ∀ tail, ∀ d ∈ (chars ns ++ tail).head?, isDigit d = false) {text : String}
    (htext : text.toList = chars ns) :
    (ofSource flavor (TextEdit.applyAll source
      [.insert ⟨t.span.start.line, t.span.start.column - c.indentBefore t⟩ text])).Spells
      (visible ns ++ t.lexeme :: vs.map Token.lexeme) := by
  have hknown := known_of_unknown_eq_nil hknown
  have hfirst : (ofSource flavor source).significant = [] ++ t :: vs := h
  obtain ⟨as, bs, hsource, has, hbs, hspan, htake⟩ := exists_part hknown hfirst
  have hindent : c.indentBefore t ≤ ((chars as).reverse.takeWhile isIndent).length := by
    unfold Checker.indentBefore
    rw [hc, htake]
    exact Nat.min_le_left _ _
  obtain ⟨p, w, hp, hw, hposition⟩ := Position.exists_indent hindent
  obtain ⟨ps, rfl, hps, hseparate⟩ := exists_cut hsource hknown hword has hp hw
  have hold := separate_ofText hknown
  rw [hsource] at hold
  have hrest := (separate_append.mp hold).2
  -- the blanks that stay before the word
  obtain ⟨ws, rfl, hws, hblank⟩ : ∃ ws, chars ws = w ∧ visible ws = [] ∧
      ∀ tail, Separate flavor ws tail := by
    by_cases hnil : w = []
    · exact ⟨[], hnil.symm, rfl, fun _ => trivial⟩
    · refine ⟨[⟨.whitespace, w⟩], by simp, rfl, fun tail => ⟨⟨?_, by simp⟩, .inl rfl, trivial⟩⟩
      exact isWhole_blank hnil fun d hd => isBlank_of_isIndent (hw d hd)
  have hcut : source.toList = chars ps ++ (chars [] ++ chars (ws ++ ([t.lexeme] ++ bs))) := by
    rw [chars_source hsource, hp]
    simp
  have hnew : Separate flavor (ps ++ (ns ++ (ws ++ ([t.lexeme] ++ bs)))) [] := by
    refine separate_append.mpr ⟨hseparate _ ?_, ?_⟩
    · rw [chars_append, List.append_assoc]
      exact hhead _
    · exact separate_append.mpr ⟨hns _, separate_append.mpr ⟨hblank _, hrest⟩⟩
  have hrange : (TextEdit.insert ⟨t.span.start.line, t.span.start.column - c.indentBefore t⟩
      text).range = ⟨Position.after (chars ps), Position.after (chars ps ++ chars [])⟩ := by
    rw [TextEdit.insert, chars_nil, List.append_nil, hposition, hspan]
  have hvisible : visible [t.lexeme] = [t.lexeme] := visible_singleton (isTrivia_of_isWord hword)
  have hspells := spells_splice (.insert _ text) hcut hrange htext hnew
  rw [visible_append, visible_append, hps, hws, hbs, hvisible] at hspells
  exact hspells

end TokenStream

end QuestScript
