import QuestScript.Proofs.Token.Place
import QuestScript.Proofs.Token.Whole

/-! # Lexemes side by side

Lexemes are separate if each of them ends before what comes after it (`Separate`). Whatever text
separate lexemes are put together to, the lexer finds them in it again, but for the blanks
(`visible_ofText`). So a part of a document that starts with a word may be replaced by anything that
does not start with a digit (`Separate.replace`). -/

namespace QuestScript.Lexeme

/-- The characters of lexemes one after another. -/
def chars (ls : List Lexeme) : List Char := ls.flatMap Lexeme.text

/-- The lexemes that are neither blanks nor comments. -/
def visible (ls : List Lexeme) : List Lexeme := ls.filter (!·.kind.isTrivia)

@[simp] theorem chars_nil : chars [] = [] := rfl

@[simp] theorem chars_cons (l : Lexeme) (ls : List Lexeme) : chars (l :: ls) = l.text ++ chars ls :=
  List.flatMap_cons

@[simp] theorem chars_append (ls ms : List Lexeme) : chars (ls ++ ms) = chars ls ++ chars ms :=
  List.flatMap_append

@[simp] theorem visible_append (ls ms : List Lexeme) :
    visible (ls ++ ms) = visible ls ++ visible ms :=
  List.filter_append ls ms

theorem visible_cons (l : Lexeme) (ls : List Lexeme) :
    visible (l :: ls) = if l.kind.isTrivia then visible ls else l :: visible ls := by
  unfold visible
  cases h : l.kind.isTrivia <;> simp [h]

theorem visible_singleton {l : Lexeme} (h : l.kind.isTrivia = false) : visible [l] = [l] := by
  rw [visible_cons, h]
  rfl

theorem isTrivia_of_isWord {k : TokenKind} (h : k.isWord = true) : k.isTrivia = false := by
  cases k <;> first | rfl | cases h

theorem chars_ofText (flavor : Flavor) (text : List Char) : chars (ofText flavor text) = text :=
  flatMap_ofText flavor text

/-! ### Separate lexemes -/

/-- Known lexemes before `tail`, each of which ends before what comes after it. Blanks may come after
blanks. -/
def Separate (flavor : Flavor) : List Lexeme → (tail : List Char) → Prop
  | [], _ => True
  | l :: ls, tail => (IsWhole flavor l ∧ l.kind ≠ .unknown) ∧
    (l.kind = .whitespace ∨ Closes l.kind (chars ls ++ tail)) ∧ Separate flavor ls tail

variable {flavor : Flavor} {l : Lexeme} {as bs ls : List Lexeme} {text tail tail' : List Char}

theorem separate_append : Separate flavor (as ++ bs) tail ↔
    Separate flavor as (chars bs ++ tail) ∧ Separate flavor bs tail := by
  induction as with
  | nil => simp [Separate]
  | cons a as ih => simp only [List.cons_append, Separate, ih, chars_append, List.append_assoc, and_assoc]

theorem closes_congr {k : TokenKind} (h : tail.head? = tail'.head?) :
    Closes k tail ↔ Closes k tail' := by
  unfold Closes
  split <;> simp only [h]

theorem IsWhole.text_ne_nil (h : IsWhole flavor l) : l.text ≠ [] := by
  obtain ⟨c, rest, htext, -⟩ := h
  rw [htext]
  simp

theorem head?_append_of_ne_nil {β : Type} {xs : List β} (h : xs ≠ []) (ys zs : List β) :
    (xs ++ ys).head? = (xs ++ zs).head? := by
  cases xs with
  | nil => exact absurd rfl h
  | cons x xs => rfl

/-- What is after separate lexemes matters to the last one only. -/
theorem Separate.of_closes (h : Separate flavor as tail)
    (hlast : ∀ l ∈ as.getLast?, l.kind = .whitespace ∨ Closes l.kind tail →
      l.kind = .whitespace ∨ Closes l.kind tail') : Separate flavor as tail' := by
  induction as with
  | nil => trivial
  | cons a as ih =>
    obtain ⟨ha, hcloses, hrest⟩ := h
    cases as with
    | nil => exact ⟨ha, hlast a rfl hcloses, trivial⟩
    | cons b as =>
      refine ⟨ha, ?_, ih hrest hlast⟩
      have hne : chars (b :: as) ≠ [] := by
        rw [chars_cons]
        simp [hrest.1.1.text_ne_nil]
      rwa [closes_congr (head?_append_of_ne_nil hne tail' tail)]

/-- A lexeme that ends before a word ends before whatever does not start with a digit. -/
theorem closes_of_startsWord {k : TokenKind} {c : Char} (hc : startsWord c = true)
    (h : k = .whitespace ∨ Closes k (c :: tail)) (htail : ∀ d ∈ tail'.head?, isDigit d = false) :
    k = .whitespace ∨ Closes k tail' := by
  rcases h with h | h
  · exact .inl h
  · have hword : isWordChar c = true := isWordChar_of_startsWord hc
    cases k with
    | whitespace => exact .inl rfl
    | integer => exact .inr htail
    | keyword k => exact absurd hword (by simp [h c rfl])
    | identifier => exact absurd hword (by simp [h c rfl])
    | lineComment =>
      have hend : isLineEnd c = true := h c rfl
      rw [isLineEnd, Bool.or_eq_true, beq_iff_eq, beq_iff_eq] at hend
      rcases hend with rfl | rfl <;> exact absurd hc (by decide)
    | _ => exact .inr trivial

/-- **What comes after separate lexemes may be replaced** if it starts with a word, by anything that
does not start with a digit. -/
theorem Separate.replace {c : Char} (h : Separate flavor as (c :: tail)) (hc : startsWord c = true)
    (htail : ∀ d ∈ tail'.head?, isDigit d = false) : Separate flavor as tail' :=
  h.of_closes fun _ _ hlast => closes_of_startsWord hc hlast htail

theorem startsWord_of_isWord {l : Lexeme} (h : IsWhole flavor l) (hk : l.kind.isWord = true) :
    ∃ c rest, l.text = c :: rest ∧ startsWord c = true := by
  obtain ⟨c, rest, htext, hc, -⟩ := (h.isWordText hk).1
  exact ⟨c, rest, htext, hc⟩

theorem not_isDigit_of_isWordText {text tail : List Char} (h : IsWordText text) :
    ∀ c ∈ (text ++ tail).head?, isDigit c = false := by
  obtain ⟨c, rest, rfl, hc, -⟩ := h
  rintro d ⟨⟩
  exact not_isDigit_of_startsWord hc

/-! ### Reading separate lexemes -/

theorem ofText_blank {c : Char} (hc : isBlank c = true) (text : List Char) :
    ofText flavor (c :: text) =
      ⟨.whitespace, c :: text.take (run isBlank text)⟩ :: ofText flavor (text.drop (run isBlank text)) := by
  rw [ofText, reach, if_pos hc]

theorem visible_ofText_blank {blanks : List Char} (h : ∀ c ∈ blanks, isBlank c = true)
    (text : List Char) :
    visible (ofText flavor (blanks ++ text)) = visible (ofText flavor text) := by
  have hdrop : visible (ofText flavor text) =
      visible (ofText flavor (text.drop (run isBlank text))) := by
    cases text with
    | nil => rfl
    | cons c text =>
      by_cases hc : isBlank c = true
      · have hrun : run isBlank (c :: text) = run isBlank text + 1 := by
          rw [run, List.takeWhile_cons_of_pos hc, List.length_cons]
          rfl
        rw [hrun, List.drop_succ_cons, ofText_blank hc]
        rfl
      · have hrun : run isBlank (c :: text) = 0 := by
          rw [run, List.takeWhile_cons_of_neg hc, List.length_nil]
        rw [hrun, List.drop_zero]
  cases blanks with
  | nil => rfl
  | cons c blanks =>
    rw [List.forall_mem_cons] at h
    have hrun : run isBlank (blanks ++ text) = blanks.length + run isBlank text := by
      rw [run, List.takeWhile_append_of_pos h.2, List.length_append]
      rfl
    rw [List.cons_append, ofText_blank h.1, hrun, List.drop_append, hdrop]
    have hempty : blanks.drop (blanks.length + run isBlank text) = [] :=
      List.drop_eq_nil_of_le (by omega)
    rw [hempty, List.nil_append, Nat.add_sub_cancel_left]
    rfl

theorem slashReach_fst_ne_whitespace (text : List Char) : (slashReach text).1 ≠ .whitespace := by
  unfold slashReach
  split
  · simp
  · dsimp only
    split <;> simp
  · simp

theorem IsWhole.isBlank (h : IsWhole flavor l) (hk : l.kind = .whitespace) :
    ∀ c ∈ l.text, Lexeme.isBlank c = true := by
  obtain ⟨c, rest, htext, hreach⟩ := h
  rw [hk] at hreach
  have hc : Lexeme.isBlank c = true := by
    by_contra hc
    have hkind : (reach flavor c rest).1 ≠ .whitespace := by
      unfold reach
      split_ifs
      · exact slashReach_fst_ne_whitespace rest
      · dsimp only
        split <;> simp
      · simp
      · dsimp only [wordKind]
        split <;> simp
      · unfold punctuation?
        split <;> simp
    rw [hreach] at hkind
    exact hkind rfl
  have hrun : run Lexeme.isBlank rest = rest.length := by
    rw [reach, if_pos hc] at hreach
    exact congrArg Prod.snd hreach
  have hrest : ∀ d ∈ rest.take (run Lexeme.isBlank rest), Lexeme.isBlank d = true := mem_take_run
  rw [hrun, List.take_length] at hrest
  rw [htext]
  exact List.forall_mem_cons.mpr ⟨hc, hrest⟩

/-- **The lexer finds separate lexemes again**, but for the blanks. -/
theorem visible_ofText (h : Separate flavor ls tail) :
    visible (ofText flavor (chars ls ++ tail)) = visible ls ++ visible (ofText flavor tail) := by
  induction ls with
  | nil => rfl
  | cons l ls ih =>
    obtain ⟨⟨hl, hk⟩, hcloses, hrest⟩ := h
    rw [chars_cons, List.append_assoc]
    by_cases hblank : l.kind = .whitespace
    · rw [visible_ofText_blank (hl.isBlank hblank), ih hrest, visible_cons, hblank]
      rfl
    · rw [hl.ofText_append hk (hcloses.resolve_left hblank), visible_cons, visible_cons, ih hrest]
      split <;> rfl

/-! ### The lexemes of a text -/

theorem closes_of_ofText (h : ofText flavor text = as ++ l :: bs)
    (hknown : ∀ m ∈ ofText flavor text, m.kind ≠ .unknown) : Closes l.kind (chars bs) := by
  induction as generalizing text with
  | nil => exact (isWhole_of_ofText h (hknown l (by rw [h]; simp))).2.1
  | cons a as ih =>
    rw [h] at hknown
    have htail := (isWhole_of_ofText h (hknown a (by simp))).2.2
    refine ih htail fun m hm => hknown m ?_
    rw [htail] at hm
    exact List.mem_cons_of_mem a hm

theorem separate_ofText (hknown : ∀ m ∈ ofText flavor text, m.kind ≠ .unknown) :
    Separate flavor (ofText flavor text) [] := by
  suffices h : ∀ as bs, ofText flavor text = as ++ bs → Separate flavor bs [] from h [] _ rfl
  intro as bs h
  induction bs generalizing as with
  | nil => trivial
  | cons l bs ih =>
    have hl : l.kind ≠ .unknown := hknown l (by rw [h]; simp)
    refine ⟨⟨isWhole_of_mem (by rw [h]; simp) hl, hl⟩, .inr ?_, ih (as ++ [l]) (by simp [h])⟩
    rw [List.append_nil]
    exact closes_of_ofText h hknown

theorem IsWhole.kind_of_isDigit (h : IsWhole flavor l) {c : Char} (hc : c ∈ l.text.head?)
    (hdigit : isDigit c = true) : l.kind = .integer := by
  obtain ⟨d, rest, htext, hreach⟩ := h
  rw [htext] at hc
  obtain rfl : d = c := Option.some.inj hc
  have hother : ∀ e : Char, isDigit e = false → d ≠ e := by
    rintro e he rfl
    rw [hdigit] at he
    cases he
  have hblank : ¬ Lexeme.isBlank d = true := by
    simp [Lexeme.isBlank, hother ' ' (by decide), hother '\t' (by decide), hother '\r' (by decide),
      hother '\n' (by decide), hother '\x0c' (by decide)]
  rw [reach, if_neg hblank, if_neg (hother '/' (by decide)), if_neg (hother '"' (by decide)),
    if_pos hdigit] at hreach
  exact (congrArg Prod.fst hreach).symm

theorem isDigit_head_chars (h : Separate flavor as tail)
    (hfirst : ∀ l ∈ as.head?, l.kind ≠ .integer) : ∀ c ∈ (chars as).head?, isDigit c = false := by
  intro c hc
  cases as with
  | nil => cases hc
  | cons l as =>
    have hl := h.1.1
    rw [chars_cons, List.head?_append_of_ne_nil _ hl.text_ne_nil] at hc
    by_contra hdigit
    exact hfirst l rfl (hl.kind_of_isDigit hc (by simpa using hdigit))

theorem isWhole_blank {blanks : List Char} (hne : blanks ≠ [])
    (h : ∀ c ∈ blanks, Lexeme.isBlank c = true) : IsWhole flavor ⟨.whitespace, blanks⟩ := by
  obtain ⟨c, rest, rfl⟩ := List.exists_cons_of_ne_nil hne
  rw [List.forall_mem_cons] at h
  refine ⟨c, rest, rfl, ?_⟩
  have hrun : run Lexeme.isBlank (rest ++ []) = rest.length := run_append h.2 (by simp)
  rw [List.append_nil] at hrun
  rw [reach, if_pos h.1, hrun]

theorem commentReach_getLast {n : Nat} (h : commentReach text = (true, n)) :
    (text.take n).getLast? = some '/' := by
  fun_induction commentReach text generalizing n with
  | case1 => simp at h
  | case2 => simp at h
  | case3 text =>
    obtain rfl : 2 = n := congrArg Prod.snd h
    rfl
  | case4 c text hc ih =>
    obtain ⟨hclosed, rfl⟩ := Prod.mk.inj h
    have ih := ih (Prod.ext hclosed rfl)
    rw [List.take_succ_cons, List.take_succ_cons, List.getLast?_cons, List.getLast?_cons, ih]
    rfl
  | case5 c text h1 h2 h3 ih =>
    obtain ⟨hclosed, rfl⟩ := Prod.mk.inj h
    have ih := ih (Prod.ext hclosed rfl)
    rw [List.take_succ_cons, List.getLast?_cons, ih]
    rfl

theorem IsWhole.getLast_blockComment (h : IsWhole flavor l) (hk : l.kind = .blockComment) :
    l.text.getLast? = some '/' := by
  obtain ⟨c, rest, htext, hreach⟩ := h
  rw [hk] at hreach
  unfold reach at hreach
  split_ifs at hreach with hblank hslash hquote hdigit hword
  · cases hreach
  · unfold slashReach at hreach
    split at hreach
    · cases hreach
    · rename_i text
      rcases hcomment : commentReach text with ⟨_ | _, n⟩
      · rw [hcomment] at hreach
        cases hreach
      · rw [hcomment] at hreach
        have hn : n + 1 = text.length + 1 := congrArg Prod.snd hreach
        have hlast := commentReach_getLast hcomment
        rw [Nat.succ.inj hn, List.take_length] at hlast
        rw [htext, List.getLast?_cons, List.getLast?_cons, hlast]
        rfl
    · cases hreach
  · dsimp only at hreach
    split at hreach <;> cases hreach
  · cases hreach
  · dsimp only [wordKind] at hreach
    split at hreach <;> cases hreach
  · unfold punctuation? at hreach
    split at hreach <;> cases hreach

end QuestScript.Lexeme
