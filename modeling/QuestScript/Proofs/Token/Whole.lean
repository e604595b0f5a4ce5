import Mathlib.Tactic.SplitIfs
import QuestScript.Token.Lexeme
import QuestScript.Proofs.Text.Lowercase
import QuestScript.Proofs.Token.Place

/-! # Where lexemes end

How far a lexeme reaches depends on its own characters and on the next one alone: a word, a number or
a run of blanks ends before a character that would continue it, a line comment before the end of the
line, and all others end by themselves (`Closes`). So a lexeme of a text is a lexeme wherever its
characters stand before a text that closes it (`reach_take_append`). -/

namespace QuestScript

namespace Keyword

theorem spelling_inj {j k : Keyword} (h : j.spelling = k.spelling) : j = k := by
  have hall : ∀ j ∈ all, ∀ k ∈ all, j.spelling = k.spelling → j = k := by
    decide +kernel
  exact hall j (mem_all j) k (mem_all k) h

theorem isAscii_spelling (k : Keyword) : IsAscii k.spelling.toList := by
  cases k <;> decide

theorem lower_spelling (k : Keyword) : k.spelling.toList.map Char.toLower = k.spelling.toList := by
  cases k <;> decide

end Keyword

namespace Lexeme

/-- A lexeme of the kind ends before the text. -/
def Closes (k : TokenKind) (text : List Char) : Prop :=
  match k with
  | .whitespace => ∀ c ∈ text.head?, isBlank c = false
  | .lineComment => ∀ c ∈ text.head?, isLineEnd c = true
  | .integer => ∀ c ∈ text.head?, isDigit c = false
  | .keyword _ | .identifier => ∀ c ∈ text.head?, isWordChar c = false
  | _ => True

/-! ### Runs of characters -/

section Run
variable {p : Char → Bool}

theorem run_le (text : List Char) : run p text ≤ text.length :=
  (List.takeWhile_sublist p).length_le

theorem take_run (text : List Char) : text.take (run p text) = text.takeWhile p :=
  (List.prefix_iff_eq_take.mp (List.takeWhile_prefix p)).symm

theorem drop_run (text : List Char) : text.drop (run p text) = text.dropWhile p := by
  have h : text.takeWhile p ++ text.drop (run p text) = text.takeWhile p ++ text.dropWhile p := by
    rw [List.takeWhile_append_dropWhile, ← take_run, List.take_append_drop]
  exact List.append_cancel_left h

theorem head_drop_run (text : List Char) : ∀ c ∈ (text.drop (run p text)).head?, p c = false := by
  intro c hc
  rw [drop_run] at hc
  have h := List.head?_dropWhile_not p text
  rw [Option.mem_def.mp hc] at h
  exact h

theorem run_append {body tail : List Char} (hbody : ∀ c ∈ body, p c = true)
    (htail : ∀ c ∈ tail.head?, p c = false) : run p (body ++ tail) = body.length := by
  rw [run, List.takeWhile_append_of_pos hbody]
  cases tail with
  | nil => rw [List.takeWhile_nil, List.append_nil]
  | cons c tail =>
    have hc : p c = false := htail c rfl
    rw [List.takeWhile_cons_of_neg (by simp [hc]), List.append_nil]

theorem mem_take_run {text : List Char} : ∀ c ∈ text.take (run p text), p c = true := by
  rw [take_run]
  exact List.all_eq_true.mp List.all_takeWhile

theorem run_take_append {text tail : List Char} (htail : ∀ c ∈ tail.head?, p c = false) :
    run p (text.take (run p text) ++ tail) = run p text := by
  rw [run_append mem_take_run htail, List.length_take, Nat.min_eq_left (run_le text)]

end Run

/-! ### Comments and strings -/

/-- A character that is not read together with what comes next is not the mark that asks for it. -/
theorem ne_of_not_pair {c mark : Char} {text : List Char} (hnil : c = mark → text = [] → False)
    (hcons : ∀ d rest, c = mark → text = d :: rest → False) : c ≠ mark := by
  rintro rfl
  cases text with
  | nil => exact hnil rfl rfl
  | cons d rest => exact hcons d rest rfl rfl

theorem commentReach_cons {c : Char} (h : c ≠ '*') (text : List Char) :
    commentReach (c :: text) = ((commentReach text).1, (commentReach text).2 + 1) :=
  commentReach.eq_5 c text (fun hc => absurd hc h) (fun _ hc => absurd hc h)
    fun _ _ hc => absurd hc h

theorem commentReach_take_append {text : List Char} {n : Nat} (h : commentReach text = (true, n)) :
    n ≤ text.length ∧ ∀ tail, commentReach (text.take n ++ tail) = (true, n) := by
  fun_induction commentReach text generalizing n with
  | case1 => simp at h
  | case2 => simp at h
  | case3 text =>
    obtain rfl : 2 = n := congrArg Prod.snd h
    exact ⟨by simp, fun tail => by simp [commentReach]⟩
  | case4 c text hc ih =>
    obtain ⟨hclosed, rfl⟩ := Prod.mk.inj h
    obtain ⟨hle, htail⟩ := ih (Prod.ext hclosed rfl)
    refine ⟨by simpa using hle, fun tail => ?_⟩
    rw [List.take_succ_cons, List.take_succ_cons, List.cons_append, List.cons_append,
      commentReach.eq_4 _ _ hc, htail]
  | case5 c text h1 h2 h3 ih =>
    have hstar : c ≠ '*' := ne_of_not_pair h1 h3
    obtain ⟨hclosed, rfl⟩ := Prod.mk.inj h
    obtain ⟨hle, htail⟩ := ih (Prod.ext hclosed rfl)
    refine ⟨by simpa using hle, fun tail => ?_⟩
    rw [List.take_succ_cons, List.cons_append, commentReach_cons hstar, htail]

theorem stringReach_cons {c : Char} (hquote : c ≠ '"') (hslash : c ≠ '\\')
    (hend : isLineEnd c = false) (text : List Char) :
    stringReach (c :: text) = ((stringReach text).1, (stringReach text).2 + 1) := by
  rw [stringReach.eq_5 c text hquote (fun hc => absurd hc hslash) fun _ _ hc => absurd hc hslash]
  exact if_neg (by simp [hend])

/-- No character of a string ends its line, whether the string is closed or not. -/
theorem isLineEnd_of_mem_take_stringReach {text : List Char} {c : Char}
    (h : c ∈ text.take (stringReach text).2) : isLineEnd c = false := by
  fun_induction stringReach text with
  | case1 => simp at h
  | case2 text =>
    rw [List.take_succ_cons, List.take_zero, List.mem_singleton] at h
    rw [h]
    decide
  | case3 => simp at h
  | case4 => simp at h
  | case5 d text hd ih =>
    rw [List.take_succ_cons, List.take_succ_cons, List.mem_cons, List.mem_cons] at h
    rcases h with rfl | rfl | h
    · decide
    · exact eq_false_of_ne_true hd
    · exact ih h
  | case6 => simp at h
  | case7 d text hquote h1 h2 hd ih =>
    rw [List.take_succ_cons, List.mem_cons] at h
    rcases h with rfl | h
    · exact eq_false_of_ne_true hd
    · exact ih h

theorem stringReach_take_append {text : List Char} {n : Nat} (h : stringReach text = (true, n)) :
    n ≤ text.length ∧ ∀ tail, stringReach (text.take n ++ tail) = (true, n) := by
  fun_induction stringReach text generalizing n with
  | case1 => simp at h
  | case2 text =>
    obtain rfl : 1 = n := congrArg Prod.snd h
    exact ⟨by simp, fun tail => by simp [stringReach]⟩
  | case3 => simp at h
  | case4 => simp at h
  | case5 c text hc ih =>
    obtain ⟨hclosed, rfl⟩ := Prod.mk.inj h
    obtain ⟨hle, htail⟩ := ih (Prod.ext hclosed rfl)
    refine ⟨by simpa using hle, fun tail => ?_⟩
    rw [List.take_succ_cons, List.take_succ_cons, List.cons_append, List.cons_append,
      stringReach, if_neg hc, htail]
  | case6 => simp at h
  | case7 c text hquote h1 h2 hc ih =>
    have hslash : c ≠ '\\' := ne_of_not_pair h1 h2
    obtain ⟨hclosed, rfl⟩ := Prod.mk.inj h
    obtain ⟨hle, htail⟩ := ih (Prod.ext hclosed rfl)
    refine ⟨by simpa using hle, fun tail => ?_⟩
    rw [List.take_succ_cons, List.cons_append, stringReach_cons hquote hslash (by simpa using hc),
      htail]

/-! ### Lexemes -/

section Reach
variable {flavor : Flavor} {c : Char} {text : List Char} {k : TokenKind} {n : Nat}

theorem closes_nil (k : TokenKind) : Closes k [] := by
  unfold Closes
  split <;> simp

theorem closes_word {k : TokenKind} (h : k.isWord = true) :
    Closes k text ↔ ∀ c ∈ text.head?, isWordChar c = false := by
  cases k <;> simp [TokenKind.isWord] at h <;> rfl

theorem isWord_wordKind (flavor : Flavor) (word : List Char) :
    (wordKind flavor word).isWord = true := by
  unfold wordKind
  split <;> rfl

theorem slashReach_take_append (h : slashReach text = (k, n)) (hk : k ≠ .unknown) :
    n ≤ text.length ∧ Closes k (text.drop n) ∧
      ∀ tail, Closes k tail → slashReach (text.take n ++ tail) = (k, n) := by
  unfold slashReach at h
  split at h
  · rename_i text
    obtain ⟨rfl, rfl⟩ := Prod.mk.inj h
    refine ⟨Nat.succ_le_succ (run_le text), fun c hc => ?_, fun tail htail => ?_⟩
    · have hend := head_drop_run (p := (!isLineEnd ·)) text c hc
      simpa using hend
    · have hrun : run (!isLineEnd ·) (text.take (run (!isLineEnd ·) text) ++ tail) =
          run (!isLineEnd ·) text := run_take_append fun c hc => by simp [htail c hc]
      rw [List.take_succ_cons, List.cons_append, slashReach, hrun]
  · rename_i text
    rcases hreach : commentReach text with ⟨_ | _, m⟩
    · rw [hreach] at h
      exact absurd (congrArg Prod.fst h).symm hk
    · rw [hreach] at h
      obtain ⟨rfl, rfl⟩ := Prod.mk.inj h
      obtain ⟨hle, htail⟩ := commentReach_take_append hreach
      refine ⟨Nat.succ_le_succ hle, trivial, fun tail _ => ?_⟩
      rw [List.take_succ_cons, List.cons_append, slashReach, htail]
  · exact absurd (congrArg Prod.fst h).symm hk

/-- **A lexeme that the lexer knows ends where its kind says, and depends on nothing beyond.** -/
theorem reach_take_append (h : reach flavor c text = (k, n)) (hk : k ≠ .unknown) :
    n ≤ text.length ∧ Closes k (text.drop n) ∧
      ∀ tail, Closes k tail → reach flavor c (text.take n ++ tail) = (k, n) := by
  unfold reach at h
  split_ifs at h with hblank hslash hquote hdigit hword
  · obtain ⟨rfl, rfl⟩ := Prod.mk.inj h
    refine ⟨run_le text, head_drop_run text, fun tail htail => ?_⟩
    rw [reach, if_pos hblank, run_take_append htail]
  · obtain ⟨hle, hcloses, htail⟩ := slashReach_take_append h hk
    refine ⟨hle, hcloses, fun tail hclosed => ?_⟩
    rw [reach, if_neg hblank, if_pos hslash, htail tail hclosed]
  · rcases hreach : stringReach text with ⟨_ | _, m⟩
    · rw [hreach] at h
      exact absurd (congrArg Prod.fst h).symm hk
    · rw [hreach] at h
      obtain ⟨rfl, rfl⟩ := Prod.mk.inj h
      obtain ⟨hle, htail⟩ := stringReach_take_append hreach
      refine ⟨hle, trivial, fun tail _ => ?_⟩
      rw [reach, if_neg hblank, if_neg hslash, if_pos hquote, htail]
  · obtain ⟨rfl, rfl⟩ := Prod.mk.inj h
    refine ⟨run_le text, head_drop_run text, fun tail htail => ?_⟩
    rw [reach, if_neg hblank, if_neg hslash, if_neg hquote, if_pos hdigit, run_take_append htail]
  · obtain ⟨rfl, rfl⟩ := Prod.mk.inj h
    have hk := isWord_wordKind flavor (c :: text.take (run isWordChar text))
    refine ⟨run_le text, (closes_word hk).mpr (head_drop_run text), fun tail htail => ?_⟩
    have hrun : run isWordChar (text.take (run isWordChar text) ++ tail) = run isWordChar text :=
      run_take_append ((closes_word hk).mp htail)
    rw [reach, if_neg hblank, if_neg hslash, if_neg hquote, if_neg hdigit, if_pos hword]
    simp only [hrun]
    have hle : run isWordChar text ≤ (text.take (run isWordChar text)).length := by
      rw [List.length_take]
      exact Nat.le_min.mpr ⟨Nat.le_refl _, run_le text⟩
    rw [List.take_append_of_le_length hle, List.take_take, Nat.min_self]
  · obtain ⟨rfl, rfl⟩ := Prod.mk.inj h
    refine ⟨Nat.zero_le _, ?_, fun tail htail => ?_⟩
    · unfold punctuation?
      split <;> trivial
    · rw [reach, if_neg hblank, if_neg hslash, if_neg hquote, if_neg hdigit, if_neg hword]

end Reach

/-! ### Lexemes by themselves -/

/-- The lexer makes one lexeme of the characters by themselves. -/
def IsWhole (flavor : Flavor) (l : Lexeme) : Prop :=
  ∃ c rest, l.text = c :: rest ∧ reach flavor c rest = (l.kind, rest.length)

section Whole
variable {flavor : Flavor} {l : Lexeme}

theorem IsWhole.ofText_append (h : IsWhole flavor l) (hk : l.kind ≠ .unknown) {tail : List Char}
    (htail : Closes l.kind tail) : ofText flavor (l.text ++ tail) = l :: ofText flavor tail := by
  obtain ⟨c, rest, htext, hreach⟩ := h
  have hnew := (reach_take_append hreach hk).2.2 tail htail
  rw [List.take_length] at hnew
  rw [htext, List.cons_append, ofText, hnew]
  simp only [List.take_left, List.drop_left, ← htext]

theorem isWhole_of_ofText {text : List Char} {ls : List Lexeme} (h : ofText flavor text = l :: ls)
    (hk : l.kind ≠ .unknown) :
    IsWhole flavor l ∧ Closes l.kind (ls.flatMap Lexeme.text) ∧
      ofText flavor (ls.flatMap Lexeme.text) = ls := by
  cases text with
  | nil => simp [ofText] at h
  | cons c text =>
    rcases hreach : reach flavor c text with ⟨k, n⟩
    rw [ofText, hreach] at h
    obtain ⟨rfl, rfl⟩ := List.cons.inj h
    rw [flatMap_ofText]
    obtain ⟨hle, hcloses, htail⟩ := reach_take_append hreach hk
    refine ⟨⟨c, text.take n, rfl, ?_⟩, hcloses, rfl⟩
    have hwhole := htail [] (closes_nil k)
    rw [List.append_nil] at hwhole
    rw [hwhole, List.length_take, Nat.min_eq_left hle]

theorem isWhole_of_mem {text : List Char} (h : l ∈ ofText flavor text) (hk : l.kind ≠ .unknown) :
    IsWhole flavor l := by
  fun_induction ofText flavor text with
  | case1 => simp at h
  | case2 c text kind n hr ih =>
    rcases List.mem_cons.mp h with rfl | h
    · have hfirst : ofText flavor (c :: text) =
          ⟨kind, c :: text.take n⟩ :: ofText flavor (text.drop n) := by rw [ofText, hr]
      exact (isWhole_of_ofText hfirst hk).1
    · exact ih h

end Whole

/-! ### Words -/

/-- The text is a word: a letter or an underscore, then letters, digits and underscores. -/
def IsWordText (text : List Char) : Prop :=
  ∃ c rest, text = c :: rest ∧ startsWord c = true ∧ ∀ d ∈ rest, isWordChar d = true

theorem startsWord_iff {c : Char} : startsWord c = true ↔
    65 ≤ c.toNat ∧ c.toNat ≤ 90 ∨ 97 ≤ c.toNat ∧ c.toNat ≤ 122 ∨ c.toNat = 95 := by
  have hunderscore : c = '_' ↔ c.toNat = 95 := ⟨fun h => by rw [h]; rfl, fun h => Char.toNat_inj.mp h⟩
  have halpha : c.isAlpha = (decide (c.val ≥ 'A'.val ∧ c.val ≤ 'Z'.val) ||
      decide (c.val ≥ 'a'.val) && decide (c.val ≤ 'z'.val)) := rfl
  rw [startsWord, halpha]
  simp only [Bool.or_eq_true, Bool.and_eq_true, decide_eq_true_eq, beq_iff_eq, hunderscore]
  rw [or_assoc]
  rfl

theorem startsWord_toLower (c : Char) : startsWord c.toLower = startsWord c := by
  rcases Ascii.toLower_cases c with ⟨hle, hlower⟩ | ⟨-, hsame⟩
  · rw [startsWord_iff.mpr (.inl hle), startsWord_iff]
    omega
  · rw [hsame]

theorem toLower_of_not_startsWord {c : Char} (h : startsWord c = false) : c.toLower = c := by
  rcases Ascii.toLower_cases c with ⟨hle, -⟩ | ⟨-, hsame⟩
  · rw [startsWord_iff.mpr (.inl hle)] at h
    cases h
  · exact hsame

theorem isDigit_iff {c : Char} : isDigit c = true ↔ 48 ≤ c.toNat ∧ c.toNat ≤ 57 := by
  simp only [isDigit, Bool.and_eq_true, decide_eq_true_eq]
  rfl

theorem isWordChar_of_startsWord {c : Char} (h : startsWord c = true) : isWordChar c = true := by
  rw [isWordChar, h]
  rfl

theorem toNat_lt_of_isWordChar {c : Char} (h : isWordChar c = true) : c.toNat < 0x80 := by
  rw [isWordChar, Bool.or_eq_true, startsWord_iff, isDigit_iff] at h
  omega

theorem IsWordText.isAscii {text : List Char} (h : IsWordText text) : IsAscii text := by
  obtain ⟨c, rest, rfl, hc, hrest⟩ := h
  refine isAscii_cons.mpr ⟨?_, fun d hd => toNat_lt_of_isWordChar (hrest d hd)⟩
  exact toNat_lt_of_isWordChar (isWordChar_of_startsWord hc)

theorem ne_of_startsWord {c d : Char} (hd : startsWord d = false) (hc : startsWord c = true) :
    c ≠ d := by
  rintro rfl
  rw [hc] at hd
  cases hd

theorem isBlank_of_startsWord {c : Char} (h : startsWord c = true) : isBlank c = false := by
  simp [isBlank, ne_of_startsWord (d := ' ') (by decide) h, ne_of_startsWord (d := '\t') (by decide) h,
    ne_of_startsWord (d := '\r') (by decide) h, ne_of_startsWord (d := '\n') (by decide) h,
    ne_of_startsWord (d := '\x0c') (by decide) h]

theorem not_isDigit_of_startsWord {c : Char} (h : startsWord c = true) : isDigit c = false := by
  by_contra hdigit
  rw [Bool.not_eq_false, isDigit_iff] at hdigit
  rw [startsWord_iff] at h
  omega

theorem reach_of_startsWord {flavor : Flavor} {c : Char} (h : startsWord c = true)
    (text : List Char) : reach flavor c text =
      (wordKind flavor (c :: text.take (run isWordChar text)), run isWordChar text) := by
  have hdigit : ¬ isDigit c = true := by simp [not_isDigit_of_startsWord h]
  have hblank : ¬ isBlank c = true := by simp [isBlank_of_startsWord h]
  have hslash : c ≠ '/' := ne_of_startsWord (by decide) h
  have hquote : c ≠ '"' := ne_of_startsWord (by decide) h
  rw [reach, if_neg hblank, if_neg hslash, if_neg hquote, if_neg hdigit, if_pos h]

theorem isWhole_word {flavor : Flavor} {word : List Char} (h : IsWordText word) :
    IsWhole flavor ⟨wordKind flavor word, word⟩ := by
  obtain ⟨c, rest, rfl, hc, hrest⟩ := h
  have hrun : run isWordChar rest = rest.length := by
    have h : run isWordChar (rest ++ []) = rest.length := run_append hrest (by simp)
    rwa [List.append_nil] at h
  refine ⟨c, rest, rfl, ?_⟩
  rw [reach_of_startsWord hc, hrun, List.take_length]

theorem isWord_slashReach (text : List Char) : (slashReach text).1.isWord = false := by
  unfold slashReach
  split
  · rfl
  · dsimp only
    split <;> rfl
  · rfl

theorem isWord_punctuation (c : Char) : ((punctuation? c).getD .unknown).isWord = false := by
  unfold punctuation?
  split <;> rfl

theorem IsWhole.isWordText {flavor : Flavor} {l : Lexeme} (h : IsWhole flavor l)
    (hk : l.kind.isWord = true) : IsWordText l.text ∧ l.kind = wordKind flavor l.text := by
  obtain ⟨c, rest, htext, hreach⟩ := h
  by_cases hc : startsWord c = true
  · rw [reach_of_startsWord hc] at hreach
    obtain ⟨hkind, hrun⟩ := Prod.mk.inj hreach
    rw [hrun, List.take_length] at hkind
    have hall : ∀ d ∈ rest.take (run isWordChar rest), isWordChar d = true := mem_take_run
    rw [hrun, List.take_length] at hall
    exact ⟨⟨c, rest, htext, hc, hall⟩, by rw [htext, hkind]⟩
  · have hkind : (reach flavor c rest).1.isWord = true := by rw [hreach]; exact hk
    unfold reach at hkind
    split_ifs at hkind
    · cases hkind
    · rw [isWord_slashReach] at hkind
      cases hkind
    · dsimp only at hkind
      split at hkind <;> cases hkind
    · cases hkind
    · rw [isWord_punctuation] at hkind
      cases hkind

theorem sameWord_of_wordKind {flavor : Flavor} {word : List Char} {k : Keyword}
    (h : wordKind flavor word = .keyword k) :
    Keyword.ofWord? flavor word = some k ∧ Ascii.sameWord k.spelling.toList word = true := by
  unfold wordKind at h
  split at h
  · rename_i j hj
    cases h
    have hfind := List.find?_some hj
    rw [Bool.and_eq_true] at hfind
    exact ⟨hj, hfind.2⟩
  · cases h

theorem isWordText_of_all {text : List Char}
    (h : (text.head?.any startsWord && text.all isWordChar) = true) : IsWordText text := by
  rw [Bool.and_eq_true] at h
  cases text with
  | nil => cases h.1
  | cons c rest => exact ⟨c, rest, rfl, h.1, fun d hd => List.all_eq_true.mp h.2 d (by simp [hd])⟩

theorem isWordText_spelling (k : Keyword) : IsWordText k.spelling.toList := by
  refine isWordText_of_all ?_
  cases k <;> decide +kernel

theorem wordKind_congr (flavor : Flavor) {v w : List Char} (h : Ascii.sameWord v w = true) :
    wordKind flavor v = wordKind flavor w := by
  unfold wordKind Keyword.ofWord?
  simp only [Ascii.sameWord, Ascii.sameWord_iff.mp h]

theorem wordKind_spelling {flavor : Flavor} {word : List Char} {k : Keyword}
    (h : wordKind flavor word = .keyword k) : wordKind flavor k.spelling.toList = .keyword k :=
  (wordKind_congr flavor (sameWord_of_wordKind h).2).trans h

/-! ### Line breaks -/

theorem newline_notMem_take_run {p : Char → Bool} (hp : p '\n' = false) {c : Char}
    (hc : c ≠ '\n') (text : List Char) : '\n' ∉ c :: text.take (run p text) := by
  intro hmem
  rcases List.mem_cons.mp hmem with hfirst | hmem
  · exact hc hfirst.symm
  · have hline : p '\n' = true := mem_take_run _ hmem
    rw [hp] at hline
    cases hline

/-- A line break is part of blanks, or of a comment that may go over several lines. -/
theorem of_newline_mem_reach {flavor : Flavor} {c : Char} {text : List Char} {k : TokenKind} {n : Nat}
    (h : reach flavor c text = (k, n)) (hline : '\n' ∈ c :: text.take n) :
    k = .whitespace ∨ ['/', '*'] <+: c :: text.take n ∧ (k = .blockComment ∨ k = .unknown) := by
  unfold reach at h
  split_ifs at h with hblank hslash hquote hdigit hword
  · exact .inl (congrArg Prod.fst h).symm
  · obtain rfl := hslash
    unfold slashReach at h
    split at h
    · rename_i text
      obtain ⟨rfl, rfl⟩ := Prod.mk.inj h
      rw [List.take_succ_cons] at hline
      rcases List.mem_cons.mp hline with hfirst | hline
      · cases hfirst
      · exact absurd hline (newline_notMem_take_run (by decide) (by decide) text)
    · rename_i text
      obtain ⟨rfl, rfl⟩ := Prod.mk.inj h
      refine .inr ⟨⟨text.take _, by rw [List.take_succ_cons]; rfl⟩, ?_⟩
      split
      · exact .inl rfl
      · exact .inr rfl
    · obtain ⟨rfl, rfl⟩ := Prod.mk.inj h
      simp at hline
  · obtain rfl := hquote
    obtain rfl : (stringReach text).2 = n := congrArg Prod.snd h
    rcases List.mem_cons.mp hline with hfirst | hline
    · cases hfirst
    · exact absurd (isLineEnd_of_mem_take_stringReach hline) (by decide)
  · obtain rfl : run isDigit text = n := congrArg Prod.snd h
    have hc : c ≠ '\n' := by
      rintro rfl
      cases hdigit
    exact absurd hline (newline_notMem_take_run rfl hc text)
  · obtain rfl : run isWordChar text = n := congrArg Prod.snd h
    have hc : c ≠ '\n' := by
      rintro rfl
      cases hword
    exact absurd hline (newline_notMem_take_run rfl hc text)
  · obtain rfl : 0 = n := congrArg Prod.snd h
    rw [List.take_zero, List.mem_singleton] at hline
    exact absurd (hline ▸ rfl) hblank

theorem IsWhole.newline_notMem {flavor : Flavor} {l : Lexeme} (h : IsWhole flavor l)
    (hk : l.kind.isHidden = false) : '\n' ∉ l.text := by
  obtain ⟨c, rest, htext, hreach⟩ := h
  intro hline
  rw [htext, ← List.take_length (l := rest)] at hline
  have hhidden : l.kind.isHidden = true := by
    rcases of_newline_mem_reach hreach hline with h | ⟨-, h | h⟩ <;> rw [h] <;> rfl
  rw [hk] at hhidden
  cases hhidden

/-- **Unknown text over several lines is a comment that is not closed.** -/
theorem opensComment_of_newline_mem {flavor : Flavor} {text : List Char} {l : Lexeme}
    (h : l ∈ ofText flavor text) (hk : l.kind = .unknown) (hline : '\n' ∈ l.text) :
    ['/', '*'] <+: l.text := by
  fun_induction ofText flavor text with
  | case1 => simp at h
  | case2 c text kind n hr ih =>
    rcases List.mem_cons.mp h with rfl | h
    · rcases of_newline_mem_reach hr hline with hblank | ⟨hopens, -⟩
      · exact absurd (hblank.symm.trans hk) (by decide)
      · exact hopens
    · exact ih h

end Lexeme

/-- **A significant token of a document is a lexeme by itself.** -/
theorem TokenStream.isWhole_lexeme {flavor : Flavor} {source : String} {t : Token}
    (h : t ∈ (ofSource flavor source).significant) : Lexeme.IsWhole flavor t.lexeme := by
  obtain ⟨hmem, hsignificant⟩ := List.mem_filter.mp h
  rw [document_ofSource] at hmem
  refine Lexeme.isWhole_of_mem (lexeme_of_mem_placed hmem) fun hk => ?_
  have hkind : t.kind = .unknown := hk
  rw [Token.isSignificant, Token.isHidden, hkind] at hsignificant
  cases hsignificant

/-- **A significant token of a document stands on one line.** -/
theorem TokenStream.newline_notMem {flavor : Flavor} {source : String} {t : Token}
    (h : t ∈ (ofSource flavor source).significant) : '\n' ∉ t.text.toList := by
  have hvisible : t.kind.isHidden = false := by
    simpa [Token.isSignificant, Token.isHidden] using (List.mem_filter.mp h).2
  exact (isWhole_lexeme h).newline_notMem hvisible

end QuestScript
