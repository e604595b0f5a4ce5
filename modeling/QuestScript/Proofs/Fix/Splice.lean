import QuestScript.Proofs.Text.Edit
import QuestScript.Proofs.Token.Separate

/-! # Documents with a part replaced

Where significant tokens of a document stand (`exists_parts`), and which significant tokens a document
has after an edit that replaces or removes some of them, or puts others between them. -/

namespace QuestScript

open Lexeme

/-! ### Spans of tokens -/

namespace TokenStream
variable {flavor : Flavor} {source : String}

/-- **Where a token of a document stands.** -/
theorem span_eq {ls : List Lexeme} {before after : List Token} {t : Token}
    (h : placed .start 0 ls = before ++ t :: after) (ht : '\n' ∉ t.text.toList) :
    t.span = ⟨Position.after (chars (before.map Token.lexeme)),
      Position.after (chars (before.map Token.lexeme) ++ t.text.toList)⟩ := by
  obtain ⟨ls₁, l, ls₂, -, hbefore, rfl⟩ := placed_eq_append h
  have hchars : chars (before.map Token.lexeme) = ls₁.flatMap Lexeme.text := by
    rw [← hbefore, map_placed]
    rfl
  rw [hchars, Position.after_append ht, Token.span]
  simp only [Cursor.advance_start, Nat.add_sub_cancel]
  rfl

/-- **Where a token of a document starts**, on however many lines it stands. -/
theorem start_eq {ls : List Lexeme} {before after : List Token} {t : Token}
    (h : placed .start 0 ls = before ++ t :: after) :
    t.span.start = Position.after (chars (before.map Token.lexeme)) := by
  obtain ⟨ls₁, l, ls₂, -, hbefore, rfl⟩ := placed_eq_append h
  rw [← hbefore, map_placed, Token.span]
  simp only [Cursor.advance_start, Nat.add_sub_cancel]
  rfl

theorem exists_filter_eq_append {β : Type} {p : β → Bool} {b : β} {xs more ys : List β}
    (h : xs.filter p = more ++ ys) : ∃ es fs, xs = es ++ fs ∧ es.filter p = more ∧ fs.filter p = ys ∧
      (b :: es).getLast (by simp) = (b :: more).getLast (by simp) ∧ (more = [] → es = []) := by
  induction more generalizing b xs with
  | nil => exact ⟨[], xs, rfl, rfl, h, rfl, fun _ => rfl⟩
  | cons m more ih =>
    obtain ⟨hs, zs, rfl, hhs, hm, hzs⟩ := List.filter_eq_cons_iff.mp h
    obtain ⟨es, fs, rfl, hes, hfs, hlast, -⟩ := ih (b := m) hzs
    refine ⟨hs ++ m :: es, fs, by simp, ?_, hfs, ?_, fun hnil => by cases hnil⟩
    · rw [List.filter_append, List.filter_cons_of_pos hm, hes,
        List.filter_eq_nil_iff.mpr hhs, List.nil_append]
    · rw [List.getLast_cons (by simp), List.getLast_cons (by simp),
        List.getLast_append_of_ne_nil (by simp) (by simp)]
      exact hlast

theorem visible_map_lexeme {ts : List Token} (h : ∀ t ∈ ts, t.kind ≠ .unknown) :
    visible (ts.map Token.lexeme) = (ts.filter (·.isSignificant)).map Token.lexeme := by
  rw [visible, List.filter_map]
  refine congrArg (List.map Token.lexeme) (List.filter_congr fun t ht => ?_)
  have hbeq : (t.kind == TokenKind.unknown) = false := by simpa using h t ht
  show (!t.kind.isTrivia) = !(t.kind.isTrivia || t.kind == .unknown)
  rw [hbeq, Bool.or_false]

theorem newline_notMem_of_isSignificant {t : Token}
    (hknown : ∀ l ∈ ofText flavor source.toList, l.kind ≠ .unknown)
    (ht : t.lexeme ∈ ofText flavor source.toList) (hsignificant : t.isSignificant = true) :
    '\n' ∉ t.text.toList := by
  have hwhole : IsWhole flavor t.lexeme := isWhole_of_mem ht (hknown _ ht)
  have hvisible : t.kind.isHidden = false := by
    simpa [Token.isSignificant, Token.isHidden] using hsignificant
  exact hwhole.newline_notMem hvisible

/-- **Significant tokens in a document.** Where the significant tokens are cut before `t` and after
the last of `t :: ts`, there the lexemes of the document may be cut. -/
theorem exists_parts {us ts vs : List Token} {t : Token}
    (hknown : ∀ l ∈ ofText flavor source.toList, l.kind ≠ .unknown)
    (h : (ofSource flavor source).significant = us ++ (t :: ts ++ vs)) :
    ∃ as ks bs, ofText flavor source.toList = as ++ (t.lexeme :: ks ++ bs) ∧
      visible as = us.map Token.lexeme ∧ visible ks = ts.map Token.lexeme ∧
      visible bs = vs.map Token.lexeme ∧ (ts = [] → ks = []) ∧
      t.span.start = Position.after (chars as) ∧
      ((t :: ts).getLast (by simp)).span.stop =
        Position.after (chars as ++ chars (t.lexeme :: ks)) ∧
      ((ofSource flavor source).tokens.take t.index).flatMap (·.text.toList) = chars as := by
  have hplaced : (placed .start 0 (ofText flavor source.toList)).filter (·.isSignificant) =
      us ++ (t :: ts ++ vs) := by
    rw [← document_ofSource]
    exact h
  obtain ⟨ds, zs, hall, hds, hzs⟩ := List.filter_eq_append_iff.mp hplaced
  obtain ⟨hs, ws, rfl, hhs, ht, hws⟩ := List.filter_eq_cons_iff.mp hzs
  obtain ⟨es, fs, rfl, hes, hfs, hlast, hempty⟩ := exists_filter_eq_append (b := t) hws
  have hlexemes := congrArg (List.map Token.lexeme) hall
  rw [map_placed] at hlexemes
  have hmem : ∀ u ∈ ds ++ (hs ++ t :: (es ++ fs)), u.lexeme ∈ ofText flavor source.toList := by
    intro u hu
    rw [hlexemes]
    exact List.mem_map_of_mem hu
  have hvisible : ∀ xs : List Token, (∀ u ∈ xs, u ∈ ds ++ (hs ++ t :: (es ++ fs))) →
      visible (xs.map Token.lexeme) = (xs.filter (·.isSignificant)).map Token.lexeme :=
    fun xs hxs => visible_map_lexeme fun u hu => hknown _ (hmem u (hxs u hu))
  have hline : ∀ u ∈ ds ++ (hs ++ t :: (es ++ fs)), u.isSignificant = true →
      '\n' ∉ u.text.toList := by
    intro u hu
    exact newline_notMem_of_isSignificant hknown (hmem u hu)
  have hts : ∀ u ∈ t :: ts, u ∈ ds ++ (hs ++ t :: (es ++ fs)) ∧ u.isSignificant = true := by
    intro u hu
    rcases List.mem_cons.mp hu with rfl | hu
    · exact ⟨by simp, ht⟩
    · rw [← hes, List.mem_filter] at hu
      exact ⟨by simp [hu.1], hu.2⟩
  have hsplit : placed .start 0 (ofText flavor source.toList) = (ds ++ hs) ++ t :: (es ++ fs) := by
    rw [hall, List.append_assoc]
  refine ⟨(ds ++ hs).map Token.lexeme, es.map Token.lexeme, fs.map Token.lexeme, ?_, ?_, ?_, ?_, ?_,
    ?_, ?_, ?_⟩
  · rw [hlexemes]
    simp
  · rw [hvisible _ fun u hu => ?_, List.filter_append, hds, List.filter_eq_nil_iff.mpr hhs,
      List.append_nil]
    rcases List.mem_append.mp hu with hu | hu <;> simp [hu]
  · rw [hvisible _ fun u hu => by simp [hu], hes]
  · rw [hvisible _ fun u hu => by simp [hu], hfs]
  · intro hnil
    rw [hempty hnil, List.map_nil]
  · rw [span_eq hsplit (hline t (hts t (by simp)).1 ht)]
  · have hdropLast := List.dropLast_append_getLast (l := t :: es) (by simp)
    rw [hlast] at hdropLast
    have hstop : placed .start 0 (ofText flavor source.toList) =
        (ds ++ hs ++ (t :: es).dropLast) ++ (t :: ts).getLast (by simp) :: fs := by
      rw [hall, List.append_assoc (ds ++ hs), ← List.singleton_append (l := fs),
        ← List.append_assoc _ _ fs, hdropLast]
      simp
    have hu := hts _ (List.getLast_mem (l := t :: ts) (by simp))
    rw [span_eq hstop (hline _ hu.1 hu.2)]
    refine congrArg Position.after ?_
    rw [List.map_append, chars_append, List.append_assoc]
    refine congrArg (chars ((ds ++ hs).map Token.lexeme) ++ ·) ?_
    rw [← List.map_cons, ← hdropLast, List.map_append, chars_append]
    simp [Token.lexeme]
  · rw [tokens_ofSource, hsplit, List.append_assoc, index_eq hsplit, List.take_left, chars,
      List.flatMap_map]
    rfl

/-- **A significant token in a document.** -/
theorem exists_part {us vs : List Token} {t : Token}
    (hknown : ∀ l ∈ ofText flavor source.toList, l.kind ≠ .unknown)
    (h : (ofSource flavor source).significant = us ++ t :: vs) :
    ∃ as bs, ofText flavor source.toList = as ++ ([t.lexeme] ++ bs) ∧
      visible as = us.map Token.lexeme ∧ visible bs = vs.map Token.lexeme ∧
      t.span = ⟨Position.after (chars as), Position.after (chars as ++ chars [t.lexeme])⟩ ∧
      ((ofSource flavor source).tokens.take t.index).flatMap (·.text.toList) = chars as := by
  have hcut : (ofSource flavor source).significant = us ++ (t :: [] ++ vs) := h
  obtain ⟨as, ks, bs, hsource, has, -, hbs, hks, hstart, hstop, htake⟩ := exists_parts hknown hcut
  obtain rfl := hks rfl
  refine ⟨as, bs, hsource, has, hbs, ?_, htake⟩
  rw [← hstart, ← hstop]
  rfl

theorem significant_of_visible {vs : List Lexeme}
    (h : visible (ofText flavor source.toList) = vs) (hvs : ∀ l ∈ vs, l.kind ≠ .unknown) :
    (ofSource flavor source).unknown = [] ∧
      (ofSource flavor source).significant.map Token.lexeme = vs := by
  have hknown : ∀ l ∈ ofText flavor source.toList, l.kind ≠ .unknown := by
    intro l hl hunknown
    refine hvs l ?_ hunknown
    rw [← h, visible, List.mem_filter, hunknown]
    exact ⟨hl, rfl⟩
  have hplaced : ∀ t ∈ placed .start 0 (ofText flavor source.toList), t.kind ≠ .unknown :=
    fun t ht => hknown _ (lexeme_of_mem_placed ht)
  constructor
  · rw [unknown, tokens_ofSource, List.filter_eq_nil_iff]
    intro t ht
    rcases List.mem_append.mp ht with ht | ht
    · simpa using hplaced t ht
    · rw [List.mem_singleton.mp ht]
      simp [endToken]
  · rw [significant, document_ofSource, ← visible_map_lexeme hplaced, map_placed, h]

/-! ### Documents after an edit -/

/-- The lexer knows all of the text, and these are its significant tokens. -/
def Spells (s : TokenStream) (vs : List Lexeme) : Prop :=
  s.unknown = [] ∧ s.significant.map Token.lexeme = vs

theorem known_of_unknown_eq_nil (h : (ofSource flavor source).unknown = []) :
    ∀ l ∈ ofText flavor source.toList, l.kind ≠ .unknown := by
  intro l hl hunknown
  rw [← map_placed .start 0 (ofText flavor source.toList), List.mem_map] at hl
  obtain ⟨t, ht, rfl⟩ := hl
  have hnone := List.filter_eq_nil_iff.mp h t (by rw [tokens_ofSource]; simp [ht])
  have hkind : t.kind = .unknown := hunknown
  exact hnone (by simp [hkind])

theorem ne_unknown_of_separate {ls : List Lexeme} {tail : List Char} (h : Separate flavor ls tail) :
    ∀ l ∈ ls, l.kind ≠ .unknown := by
  induction ls with
  | nil => simp
  | cons l ls ih => exact List.forall_mem_cons.mpr ⟨h.1.2, ih h.2.2⟩

theorem chars_source {as ks bs : List Lexeme} (h : ofText flavor source.toList = as ++ (ks ++ bs)) :
    source.toList = chars as ++ (chars ks ++ chars bs) := by
  rw [← chars_append, ← chars_append, ← h, chars_ofText]

/-- **The significant tokens after an edit** that replaces lexemes by others. -/
theorem spells_splice (edit : TextEdit) {as ks bs ns : List Lexeme}
    (hsource : source.toList = chars as ++ (chars ks ++ chars bs))
    (hrange : edit.range = ⟨Position.after (chars as), Position.after (chars as ++ chars ks)⟩)
    (hnew : edit.newText.toList = chars ns)
    (hseparate : Separate flavor (as ++ (ns ++ bs)) []) :
    (ofSource flavor (TextEdit.applyAll source [edit])).Spells
      (visible as ++ (visible ns ++ visible bs)) := by
  have happlied := TextEdit.toList_applyAll hsource hrange
  have hvisible : visible (ofText flavor (TextEdit.applyAll source [edit]).toList) =
      visible (as ++ (ns ++ bs)) := by
    have hfound := visible_ofText hseparate
    rw [List.append_nil, chars_append, chars_append] at hfound
    rw [happlied, hnew, hfound, ofText]
    exact List.append_nil _
  rw [← visible_append, ← visible_append]
  exact significant_of_visible hvisible fun l hl =>
    ne_unknown_of_separate hseparate l (List.mem_filter.mp hl).1

section Edits
variable {us ts vs : List Token} {t : Token}

/-- What comes before a word may come before anything that does not start with a digit. -/
theorem separate_before_word {as bs : List Lexeme} {tail : List Char}
    (h : Separate flavor (as ++ ([t.lexeme] ++ bs)) []) (hword : t.kind.isWord = true)
    (htail : ∀ c ∈ tail.head?, isDigit c = false) : Separate flavor as tail := by
  rw [separate_append] at h
  obtain ⟨hfirst, ⟨⟨hwhole, -⟩, -⟩⟩ := h
  obtain ⟨c, rest, htext, hc⟩ := startsWord_of_isWord hwhole hword
  rw [chars_append, chars_cons, htext] at hfirst
  exact Separate.replace hfirst hc htail

/-- **A word is replaced by a word of its kind.** -/
theorem spells_respell (hknown : (ofSource flavor source).unknown = [])
    (h : (ofSource flavor source).significant = us ++ t :: vs) (hword : t.kind.isWord = true)
    {name : String} (hname : IsWordText name.toList)
    (hkind : wordKind flavor name.toList = t.kind) :
    (ofSource flavor (TextEdit.applyAll source [⟨t.span, name⟩])).Spells
      (us.map Token.lexeme ++ ⟨t.kind, name.toList⟩ :: vs.map Token.lexeme) := by
  have hknown := known_of_unknown_eq_nil hknown
  obtain ⟨as, bs, hsource, has, hbs, hspan, -⟩ := exists_part hknown h
  have hold := separate_ofText hknown
  rw [hsource] at hold
  obtain ⟨-, ⟨⟨-, hne⟩, hcloses, hrest⟩⟩ := separate_append.mp hold
  have hnew : Separate flavor (as ++ ([⟨t.kind, name.toList⟩] ++ bs)) [] := by
    refine separate_append.mpr ⟨separate_before_word hold hword ?_, ⟨⟨?_, hne⟩, hcloses, hrest⟩⟩
    · rw [chars_append, chars_cons, List.append_assoc, List.append_assoc]
      exact not_isDigit_of_isWordText hname
    · rw [← hkind]
      exact isWhole_word hname
  have hvisible : visible [⟨t.kind, name.toList⟩] = [⟨t.kind, name.toList⟩] :=
    visible_singleton (isTrivia_of_isWord hword)
  have hspells := spells_splice ⟨t.span, name⟩ (chars_source hsource) hspan (by simp) hnew
  rw [has, hbs, hvisible] at hspells
  exact hspells

theorem mem_visible {l : Lexeme} {ls : List Lexeme} (h : l ∈ ls.head?) (hk : l.kind = .integer) :
    l ∈ (visible ls).head? := by
  cases ls with
  | nil => cases h
  | cons m ls =>
    obtain rfl := Option.some.inj h
    rw [visible_cons, hk]
    rfl

/-- **Tokens from a word on are removed**, where no number comes after them. -/
theorem spells_delete (hknown : (ofSource flavor source).unknown = [])
    (h : (ofSource flavor source).significant = us ++ (t :: ts ++ vs)) (hword : t.kind.isWord = true)
    (hvs : ∀ v ∈ vs.head?, v.kind ≠ .integer) :
    (ofSource flavor (TextEdit.applyAll source
      [.delete ⟨t.span.start, ((t :: ts).getLast (by simp)).span.stop⟩])).Spells
      (us.map Token.lexeme ++ vs.map Token.lexeme) := by
  have hknown := known_of_unknown_eq_nil hknown
  obtain ⟨as, ks, bs, hsource, has, -, hbs, -, hstart, hstop, -⟩ := exists_parts hknown h
  have hold := separate_ofText hknown
  have hcons : t.lexeme :: ks ++ bs = [t.lexeme] ++ (ks ++ bs) := rfl
  rw [hsource, hcons] at hold
  have hrest : Separate flavor (ks ++ bs) [] := (separate_append.mp hold).2.2.2
  have hbs' : Separate flavor bs [] := (separate_append.mp hrest).2
  have hdigit : ∀ c ∈ (chars bs ++ []).head?, isDigit c = false := by
    rw [List.append_nil]
    refine isDigit_head_chars hbs' fun l hl hk => ?_
    have hmem := mem_visible hl hk
    rw [hbs, List.head?_map] at hmem
    obtain ⟨v, hv, rfl⟩ := Option.map_eq_some_iff.mp hmem
    exact hvs v hv hk
  have hnew : Separate flavor (as ++ ([] ++ bs)) [] :=
    separate_append.mpr ⟨separate_before_word hold hword hdigit, hbs'⟩
  have hspells := spells_splice
    (.delete ⟨t.span.start, ((t :: ts).getLast (by simp)).span.stop⟩) (chars_source hsource)
    (by rw [TextEdit.delete, hstart, hstop]) rfl hnew
  rw [has, hbs] at hspells
  exact hspells

/-- **Lexemes that may stand before anything are put after a closing brace.** -/
theorem spells_insertAfter (hknown : (ofSource flavor source).unknown = [])
    (h : (ofSource flavor source).significant = us ++ t :: vs) (hk : t.kind = .rightBrace)
    {ns : List Lexeme} (hns : ∀ tail, Separate flavor ns tail) {text : String}
    (htext : text.toList = chars ns) :
    (ofSource flavor (TextEdit.applyAll source [.insert t.span.stop text])).Spells
      (us.map Token.lexeme ++ t.lexeme :: (visible ns ++ vs.map Token.lexeme)) := by
  have hknown := known_of_unknown_eq_nil hknown
  obtain ⟨as, bs, hsource, has, hbs, hspan, -⟩ := exists_part hknown h
  have hold := separate_ofText hknown
  rw [hsource] at hold
  obtain ⟨hfirst, ⟨hwhole, -, hrest⟩⟩ := separate_append.mp hold
  have hempty : ofText flavor source.toList = (as ++ [t.lexeme]) ++ ([] ++ bs) := by
    rw [hsource]
    simp
  have hclosed : Separate flavor (as ++ [t.lexeme]) (chars (ns ++ bs) ++ []) := by
    refine separate_append.mpr ⟨?_, hwhole, .inr ?_, trivial⟩
    · refine hfirst.of_closes fun l _ hlast => ?_
      have hne : t.lexeme.text ≠ [] := hwhole.1.text_ne_nil
      rw [chars_append, chars_cons, List.append_assoc, List.append_assoc] at hlast
      rw [chars_cons, List.append_assoc]
      rwa [closes_congr (head?_append_of_ne_nil hne _ _)]
    · show Closes t.kind _
      rw [hk]
      trivial
  have hnew : Separate flavor ((as ++ [t.lexeme]) ++ (ns ++ bs)) [] :=
    separate_append.mpr ⟨hclosed, separate_append.mpr ⟨hns _, hrest⟩⟩
  have hvisible : visible [t.lexeme] = [t.lexeme] := by
    refine visible_singleton ?_
    show t.kind.isTrivia = false
    rw [hk]
    rfl
  have hrange : (TextEdit.insert t.span.stop text).range =
      ⟨Position.after (chars (as ++ [t.lexeme])),
        Position.after (chars (as ++ [t.lexeme]) ++ chars [])⟩ := by
    rw [TextEdit.insert, hspan, chars_append, chars_nil, List.append_nil]
  have hspells := spells_splice (.insert t.span.stop text) (chars_source hempty) hrange htext hnew
  rw [visible_append, has, hbs, hvisible, List.append_assoc] at hspells
  exact hspells

end Edits

end TokenStream

end QuestScript
