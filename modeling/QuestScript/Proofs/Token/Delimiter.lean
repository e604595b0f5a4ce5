import Mathlib.Order.Bounds.Basic
import Mathlib.Algebra.Ring.Parity
import Mathlib.Data.List.Induction
import QuestScript.Proofs.Token.Separate

/-! # Where comments and strings close

The lexer reads a star of a block comment, and a backslash of a string, together with the character
after it. So what stands right before a delimiter decides whether it closes (`takesNext_iff_odd`): a slash
closes a comment after an odd number of stars, a quote closes a string after an even number of
backslashes. A comment is the text up to the first slash that closes it (`comment_of_ofText`), a string the
text up to the first quote of its line that closes it (`string_of_ofText`). -/

namespace QuestScript.Lexeme

/-! ### Marks that take the next character -/

/-- Whether the last character of the text takes the one that comes next: it is a mark that the mark
before it has not taken. -/
def takesNext (mark : Char) (text : List Char) : Bool :=
  text.foldl (fun taken c => c == mark && !taken) false

/-- How often the text has the character at its end. -/
def trailing (c : Char) (text : List Char) : Nat := run (· == c) text.reverse

section Marks
variable {mark c d : Char} {text : List Char}

theorem takesNext_concat (text : List Char) :
    takesNext mark (text ++ [c]) = (c == mark && !takesNext mark text) := by
  simp [takesNext]

theorem takesNext_cons (h : c ≠ mark) (text : List Char) :
    takesNext mark (c :: text) = takesNext mark text := by
  simp [takesNext, beq_false_of_ne h]

theorem takesNext_pair (text : List Char) :
    takesNext mark (mark :: c :: text) = takesNext mark text := by
  simp [takesNext]

theorem trailing_concat (text : List Char) :
    trailing mark (text ++ [c]) = if c = mark then trailing mark text + 1 else 0 := by
  unfold trailing run
  rw [List.reverse_append, List.reverse_singleton, List.singleton_append]
  by_cases hc : c = mark
  · rw [List.takeWhile_cons_of_pos (by simp [hc]), List.length_cons, if_pos hc]
  · rw [List.takeWhile_cons_of_neg (by simp [hc]), List.length_nil, if_neg hc]

/-- **A mark takes the next character exactly if the number of marks in a row is odd.** -/
theorem takesNext_iff_odd (text : List Char) :
    takesNext mark text = true ↔ Odd (trailing mark text) := by
  induction text using List.reverseRecOn with
  | nil => simp [takesNext, trailing, run]
  | append_singleton text c ih =>
    rw [takesNext_concat, trailing_concat]
    by_cases hc : c = mark
    · rw [if_pos hc, Nat.odd_add_one, ← ih]
      simp [hc]
    · rw [if_neg hc]
      simp [hc]

/-- The text without a mark at its end that takes no character. -/
def dropOpen (mark : Char) (text : List Char) : List Char :=
  if Odd (trailing mark text) then text.dropLast else text

theorem take_eq_dropOpen {n : Nat} (h : text.length = n + if takesNext mark text then 1 else 0) :
    text.take n = dropOpen mark text := by
  unfold dropOpen
  by_cases hodd : Odd (trailing mark text)
  · rw [if_pos (takesNext_iff_odd text |>.mpr hodd)] at h
    rw [if_pos hodd, List.dropLast_eq_take, h, Nat.add_sub_cancel]
  · rw [if_neg (mt (takesNext_iff_odd text).mp hodd), Nat.add_zero] at h
    rw [if_neg hodd, ← h, List.take_length]

theorem eq_concat_of_takesNext (h : takesNext mark text = true) : text = text.dropLast ++ [mark] := by
  obtain rfl | ⟨text, c, rfl⟩ := List.eq_nil_or_concat' text
  · cases h
  · rw [takesNext_concat, Bool.and_eq_true, beq_iff_eq] at h
    rw [List.dropLast_concat, h.1]

end Marks

/-! ### Delimiters -/

/-- At index `n` of the text stands the delimiter, and whether the mark before it takes it is `taken`. -/
def Delimits (mark delimiter : Char) (taken : Bool) (text : List Char) (n : Nat) : Prop :=
  text[n]? = some delimiter ∧ takesNext mark (text.take n) = taken

section Delimits
variable {mark delimiter c : Char} {taken : Bool} {text : List Char} {n : Nat}

theorem delimits_zero : Delimits mark delimiter taken (c :: text) 0 ↔ c = delimiter ∧ false = taken := by
  simp [Delimits, takesNext]

theorem delimits_cons (h : c ≠ mark) :
    Delimits mark delimiter taken (c :: text) (n + 1) ↔ Delimits mark delimiter taken text n := by
  rw [Delimits, List.getElem?_cons_succ, List.take_succ_cons, takesNext_cons h, Delimits]

theorem delimits_second :
    Delimits mark delimiter taken (mark :: c :: text) 1 ↔ c = delimiter ∧ true = taken := by
  simp [Delimits, takesNext]

theorem delimits_pair :
    Delimits mark delimiter taken (mark :: c :: text) (n + 2) ↔
      Delimits mark delimiter taken text n := by
  rw [Delimits, List.getElem?_cons_succ, List.getElem?_cons_succ, List.take_succ_cons,
    List.take_succ_cons, takesNext_pair, Delimits]

theorem not_delimits_nil : ¬ Delimits mark delimiter taken [] n := by simp [Delimits]

/-- The numbers from `k` on have the property as those from zero have the other, and no number before
`k` has it. -/
structure IsShift (k : Nat) (P Q : Nat → Prop) : Prop where
  before : ∀ m < k, ¬ P m
  shift : ∀ m, P (m + k) ↔ Q m

namespace IsShift
variable {k : Nat} {P Q : Nat → Prop} (h : IsShift k P Q)
include h

theorem exists_add {m : Nat} (hm : P m) : ∃ j, m = j + k ∧ Q j := by
  have hk : k ≤ m := Nat.le_of_not_lt fun hlt => h.before m hlt hm
  obtain ⟨j, rfl⟩ := Nat.exists_eq_add_of_le' hk
  exact ⟨j, rfl, (h.shift j).mp hm⟩

theorem isLeast (hn : IsLeast {m | Q m} n) : IsLeast {m | P m} (n + k) := by
  refine ⟨(h.shift n).mpr hn.1, fun m hm => ?_⟩
  obtain ⟨j, rfl, hj⟩ := h.exists_add hm
  have hle : n ≤ j := hn.2 hj
  omega

theorem not_exists (hn : ∀ m, ¬ Q m) (m : Nat) : ¬ P m := by
  intro hm
  obtain ⟨j, -, hj⟩ := h.exists_add hm
  exact hn j hj

end IsShift

theorem isShift_cons (h : c ≠ mark) (hc : ¬ (c = delimiter ∧ false = taken)) :
    IsShift 1 (Delimits mark delimiter taken (c :: text)) (Delimits mark delimiter taken text) where
  before m hm := by
    obtain rfl : m = 0 := by omega
    rwa [delimits_zero]
  shift _ := delimits_cons h

theorem isShift_pair (h : ¬ (mark = delimiter ∧ false = taken))
    (hc : ¬ (c = delimiter ∧ true = taken)) :
    IsShift 2 (Delimits mark delimiter taken (mark :: c :: text))
      (Delimits mark delimiter taken text) where
  before m hm := by
    obtain rfl | rfl : m = 0 ∨ m = 1 := by omega
    · rwa [delimits_zero]
    · rwa [delimits_second]
  shift _ := delimits_pair

end Delimits

/-! ### Block comments -/

/-- The slash at index `n` of the text after the opening of a comment closes it: the number of stars
right before it is odd. -/
def ClosesComment (body : List Char) (n : Nat) : Prop :=
  body[n]? = some '/' ∧ Odd (trailing '*' (body.take n))

instance (body : List Char) (n : Nat) : Decidable (ClosesComment body n) :=
  inferInstanceAs (Decidable (_ ∧ _))

theorem closesComment_eq (body : List Char) : ClosesComment body = Delimits '*' '/' true body := by
  funext n
  rw [ClosesComment, Delimits, takesNext_iff_odd]

theorem isLeast_of_commentReach {text : List Char} (h : (commentReach text).1 = true) :
    ∃ n, (commentReach text).2 = n + 1 ∧ IsLeast {m | Delimits '*' '/' true text m} n := by
  fun_induction commentReach text with
  | case1 => cases h
  | case2 => cases h
  | case3 text =>
    refine ⟨1, rfl, delimits_second.mpr ⟨rfl, rfl⟩, fun m hm => ?_⟩
    by_contra hlt
    obtain rfl : m = 0 := by omega
    simpa using delimits_zero.mp hm
  | case4 c text hc ih =>
    obtain ⟨n, hn, hleast⟩ := ih h
    have hc : c ≠ '/' := hc
    refine ⟨n + 2, ?_, (isShift_pair (by simp) (by simp [hc])).isLeast hleast⟩
    show (commentReach text).2 + 2 = n + 2 + 1
    omega
  | case5 c text h1 h2 h3 ih =>
    have hstar : c ≠ '*' := ne_of_not_pair h1 h3
    obtain ⟨n, hn, hleast⟩ := ih h
    refine ⟨n + 1, ?_, (isShift_cons hstar (by simp)).isLeast hleast⟩
    show (commentReach text).2 + 1 = n + 1 + 1
    omega

/-- In a comment that is not closed no slash closes it, and it goes up to the end of the text but for a
star that takes no character. -/
theorem not_delimits_of_commentReach {text : List Char} (h : (commentReach text).1 = false) :
    (∀ n, ¬ Delimits '*' '/' true text n) ∧
      text.length = (commentReach text).2 + if takesNext '*' text then 1 else 0 := by
  fun_induction commentReach text with
  | case1 => exact ⟨fun _ => not_delimits_nil, rfl⟩
  | case2 =>
    refine ⟨fun n hn => ?_, rfl⟩
    simpa [List.getElem?_singleton] using hn.1
  | case3 text => cases h
  | case4 c text hc ih =>
    have hc : c ≠ '/' := hc
    obtain ⟨hnone, hlength⟩ := ih h
    refine ⟨(isShift_pair (by simp) (by simp [hc])).not_exists hnone, ?_⟩
    rw [takesNext_pair, List.length_cons, List.length_cons]
    show text.length + 1 + 1 = (commentReach text).2 + 2 + _
    omega
  | case5 c text h1 h2 h3 ih =>
    have hstar : c ≠ '*' := ne_of_not_pair h1 h3
    obtain ⟨hnone, hlength⟩ := ih h
    refine ⟨(isShift_cons hstar (by simp)).not_exists hnone, ?_⟩
    rw [takesNext_cons hstar, List.length_cons]
    show text.length + 1 = (commentReach text).2 + 1 + _
    omega

section Comment
variable {body : List Char} {n : Nat}

theorem commentReach_of_isLeast (h : IsLeast {m | ClosesComment body m} n) :
    commentReach body = (true, n + 1) := by
  rw [closesComment_eq] at h
  rcases hreach : (commentReach body).1 with _ | _
  · exact absurd h.1 ((not_delimits_of_commentReach hreach).1 n)
  · obtain ⟨m, hm, hleast⟩ := isLeast_of_commentReach hreach
    obtain rfl : m = n := hleast.unique h
    exact Prod.ext hreach hm

theorem commentReach_of_not_closes (h : ∀ n, ¬ ClosesComment body n) :
    (commentReach body).1 = false ∧ body.take (commentReach body).2 = dropOpen '*' body := by
  rw [closesComment_eq] at h
  rcases hreach : (commentReach body).1 with _ | _
  · exact ⟨rfl, take_eq_dropOpen (not_delimits_of_commentReach hreach).2⟩
  · obtain ⟨m, -, hleast⟩ := isLeast_of_commentReach hreach
    exact absurd hleast.1 (h m)

end Comment

/-! ### Strings -/

/-- The quote at index `n` of the text after the opening quote of a string closes it, if it is on the same
line: the number of backslashes right before it is even. -/
def ClosesString (text : List Char) (n : Nat) : Prop :=
  text[n]? = some '"' ∧ Even (trailing '\\' (text.take n))

instance (text : List Char) (n : Nat) : Decidable (ClosesString text n) :=
  inferInstanceAs (Decidable (_ ∧ _))

theorem closesString_eq (text : List Char) :
    ClosesString text = Delimits '\\' '"' false text := by
  funext n
  rw [ClosesString, Delimits, ← Nat.not_odd_iff_even, ← takesNext_iff_odd, Bool.not_eq_true]

/-- The characters up to the end of the line. -/
def lineOf (text : List Char) : List Char := text.takeWhile (!isLineEnd ·)

theorem lineOf_cons {c : Char} (h : isLineEnd c = false) (text : List Char) :
    lineOf (c :: text) = c :: lineOf text :=
  List.takeWhile_cons_of_pos (by simp [h])

theorem lineOf_lineEnd {c : Char} (h : isLineEnd c = true) (text : List Char) :
    lineOf (c :: text) = [] :=
  List.takeWhile_cons_of_neg (by simp [h])

theorem isLineEnd_of_mem_lineOf {c : Char} {text : List Char} (h : c ∈ lineOf text) :
    isLineEnd c = false := by
  simpa using List.all_eq_true.mp List.all_takeWhile c h

theorem stringReach_lineOf (text : List Char) : stringReach (lineOf text) = stringReach text := by
  fun_induction stringReach text with
  | case1 => rfl
  | case2 text => rw [lineOf_cons (by decide), stringReach]
  | case3 => rfl
  | case4 c text hc =>
    rw [lineOf_cons (by decide), lineOf_lineEnd hc, stringReach]
  | case5 c text hc ih =>
    rw [lineOf_cons (by decide), lineOf_cons (by simpa using hc), stringReach, if_neg hc, ih]
  | case6 c text hquote h1 h2 hc =>
    rw [lineOf_lineEnd hc, stringReach]
  | case7 c text hquote h1 h2 hc ih =>
    have hslash : c ≠ '\\' := ne_of_not_pair h1 h2
    have hend : isLineEnd c = false := by simpa using hc
    rw [lineOf_cons hend, stringReach_cons hquote hslash hend, ih]

theorem isLeast_of_stringReach {text : List Char} (h : (stringReach text).1 = true) :
    ∃ n, (stringReach text).2 = n + 1 ∧ IsLeast {m | Delimits '\\' '"' false text m} n := by
  fun_induction stringReach text with
  | case1 => cases h
  | case2 text => exact ⟨0, rfl, delimits_zero.mpr ⟨rfl, rfl⟩, fun m _ => Nat.zero_le m⟩
  | case3 => cases h
  | case4 => cases h
  | case5 c text hc ih =>
    obtain ⟨n, hn, hleast⟩ := ih h
    refine ⟨n + 2, ?_, (isShift_pair (by simp) (by simp)).isLeast hleast⟩
    show (stringReach text).2 + 2 = n + 2 + 1
    omega
  | case6 => cases h
  | case7 c text hquote h1 h2 hc ih =>
    have hslash : c ≠ '\\' := ne_of_not_pair h1 h2
    obtain ⟨n, hn, hleast⟩ := ih h
    refine ⟨n + 1, ?_, (isShift_cons hslash fun hc => hquote hc.1).isLeast hleast⟩
    show (stringReach text).2 + 1 = n + 1 + 1
    omega

/-- In a string that is not closed no quote closes it, and it goes up to the end of the line but for a
backslash that takes no character. -/
theorem not_delimits_of_stringReach {line : List Char} (hline : ∀ c ∈ line, isLineEnd c = false)
    (h : (stringReach line).1 = false) :
    (∀ n, ¬ Delimits '\\' '"' false line n) ∧
      line.length = (stringReach line).2 + if takesNext '\\' line then 1 else 0 := by
  fun_induction stringReach line with
  | case1 => exact ⟨fun _ => not_delimits_nil, rfl⟩
  | case2 => cases h
  | case3 =>
    refine ⟨fun n hn => ?_, rfl⟩
    simpa [List.getElem?_singleton] using hn.1
  | case4 c text hc => simp [hc] at hline
  | case5 c text hc ih =>
    obtain ⟨hnone, hlength⟩ := ih (fun d hd => hline d (by simp [hd])) h
    refine ⟨(isShift_pair (by simp) (by simp)).not_exists hnone, ?_⟩
    rw [takesNext_pair, List.length_cons, List.length_cons]
    show text.length + 1 + 1 = (stringReach text).2 + 2 + _
    omega
  | case6 c text hquote h1 h2 hc => simp [hc] at hline
  | case7 c text hquote h1 h2 hc ih =>
    have hslash : c ≠ '\\' := ne_of_not_pair h1 h2
    obtain ⟨hnone, hlength⟩ := ih (fun d hd => hline d (by simp [hd])) h
    refine ⟨(isShift_cons hslash fun hc => hquote hc.1).not_exists hnone, ?_⟩
    rw [takesNext_cons hslash, List.length_cons]
    show text.length + 1 = (stringReach text).2 + 1 + _
    omega

section String
variable {body : List Char} {n : Nat}

theorem lineOf_append_dropWhile (body : List Char) :
    lineOf body ++ body.dropWhile (!isLineEnd ·) = body :=
  List.takeWhile_append_dropWhile

theorem take_eq_take_lineOf (h : n ≤ (lineOf body).length) : body.take n = (lineOf body).take n := by
  nth_rewrite 1 [← lineOf_append_dropWhile body]
  exact List.take_append_of_le_length h

theorem stringReach_of_isLeast (h : IsLeast {m | ClosesString (lineOf body) m} n) :
    (stringReach body).1 = true ∧
      body.take (stringReach body).2 = (lineOf body).take (n + 1) := by
  rw [closesString_eq] at h
  rw [← stringReach_lineOf]
  rcases hreach : (stringReach (lineOf body)).1 with _ | _
  · exact absurd h.1 ((not_delimits_of_stringReach (fun _ => isLineEnd_of_mem_lineOf) hreach).1 n)
  · obtain ⟨m, hm, hleast⟩ := isLeast_of_stringReach hreach
    obtain rfl : m = n := hleast.unique h
    have hlt : m < (lineOf body).length := (List.getElem?_eq_some_iff.mp h.1.1).1
    exact ⟨rfl, by rw [hm, take_eq_take_lineOf hlt]⟩

theorem stringReach_of_not_closes (h : ∀ n, ¬ ClosesString (lineOf body) n) :
    (stringReach body).1 = false ∧
      body.take (stringReach body).2 = dropOpen '\\' (lineOf body) ∧
      (Odd (trailing '\\' (lineOf body)) →
        ∃ rest, body.drop (stringReach body).2 = '\\' :: rest) := by
  rw [closesString_eq] at h
  rw [← stringReach_lineOf]
  rcases hreach : (stringReach (lineOf body)).1 with _ | _
  · have hlength := (not_delimits_of_stringReach (fun _ => isLineEnd_of_mem_lineOf) hreach).2
    have hle : (stringReach (lineOf body)).2 ≤ (lineOf body).length := by omega
    refine ⟨rfl, (take_eq_take_lineOf hle).trans (take_eq_dropOpen hlength), fun hodd => ?_⟩
    have hopen : takesNext '\\' (lineOf body) = true := (takesNext_iff_odd _).mpr hodd
    have hdrop : body.drop (stringReach (lineOf body)).2 =
        '\\' :: body.dropWhile (!isLineEnd ·) := by
      rw [if_pos hopen] at hlength
      have hlast := eq_concat_of_takesNext hopen
      have hinit : (lineOf body).dropLast.length = (stringReach (lineOf body)).2 := by
        rw [List.length_dropLast, hlength, Nat.add_sub_cancel]
      rw [← hinit]
      nth_rewrite 2 [← lineOf_append_dropWhile body]
      rw [hlast, List.append_assoc, List.dropLast_concat, List.drop_left]
      rfl
    exact ⟨_, hdrop⟩
  · obtain ⟨m, -, hleast⟩ := isLeast_of_stringReach hreach
    exact absurd hleast.1 (h m)

end String

/-! ### Lexemes of a text -/

section Lexemes
variable {flavor : Flavor} {text body : List Char} {before after ls : List Lexeme} {l : Lexeme}

theorem ofText_cons (flavor : Flavor) (c : Char) (text : List Char) :
    ofText flavor (c :: text) =
      ⟨(reach flavor c text).1, c :: text.take (reach flavor c text).2⟩ ::
        ofText flavor (text.drop (reach flavor c text).2) := by
  rw [ofText]

/-- The lexer goes on after each lexeme as if the text started there. -/
theorem ofText_chars (h : ofText flavor text = before ++ ls) : ofText flavor (chars ls) = ls := by
  induction before generalizing text with
  | nil =>
    have hchars : chars ls = text := by rw [← List.nil_append ls, ← h, chars_ofText]
    rw [hchars, h, List.nil_append]
  | cons b before ih =>
    cases text with
    | nil => simp [ofText] at h
    | cons c text =>
      rw [ofText_cons, List.cons_append] at h
      exact ih (List.cons.inj h).2

theorem reach_comment (flavor : Flavor) (body : List Char) :
    reach flavor '/' ('*' :: body) =
      (if (commentReach body).1 then .blockComment else .unknown, (commentReach body).2 + 1) := rfl

theorem reach_string (flavor : Flavor) (body : List Char) :
    reach flavor '"' body =
      (if (stringReach body).1 then .string else .unknown, (stringReach body).2) := rfl

theorem eq_of_ofText {c : Char} (h : ofText flavor text = before ++ l :: after)
    (hchars : chars (l :: after) = c :: body) :
    l = ⟨(reach flavor c body).1, c :: body.take (reach flavor c body).2⟩ ∧
      after = ofText flavor (body.drop (reach flavor c body).2) := by
  have hfirst : ofText flavor (c :: body) = l :: after := by rw [← hchars, ofText_chars h]
  rw [ofText_cons] at hfirst
  obtain ⟨hl, hafter⟩ := List.cons.inj hfirst
  exact ⟨hl.symm, hafter.symm⟩

theorem eq_of_reach_blockComment {c : Char} (h : (reach flavor c body).1 = .blockComment) :
    c = '/' ∧ ∃ rest, body = '*' :: rest := by
  unfold reach at h
  split_ifs at h with hblank hslash hquote hdigit hword
  · refine ⟨hslash, ?_⟩
    unfold slashReach at h
    split at h
    · cases h
    · exact ⟨_, rfl⟩
    · cases h
  · dsimp only at h
    split at h <;> cases h
  · dsimp only [wordKind] at h
    split at h <;> cases h
  · unfold punctuation? at h
    split at h <;> cases h

/-- **A block comment ends at the first slash that closes it.** If no slash closes it, what starts as
a comment is unknown text up to the end, but for a star that takes no character. -/
theorem comment_of_ofText {source : String}
    (h : ofText flavor source.toList = before ++ l :: after) :
    (∀ body, chars (l :: after) = '/' :: '*' :: body →
      (∀ n, IsLeast {m | ClosesComment body m} n →
        l = ⟨.blockComment, '/' :: '*' :: body.take (n + 1)⟩) ∧
      ((∀ n, ¬ ClosesComment body n) → l = ⟨.unknown, '/' :: '*' :: dropOpen '*' body⟩)) ∧
    (l.kind = .blockComment → ∃ body, chars (l :: after) = '/' :: '*' :: body) := by
  refine ⟨fun body hbody => ?_, fun hkind => ?_⟩
  · have hl := (eq_of_ofText h hbody).1
    rw [reach_comment, List.take_succ_cons] at hl
    constructor
    · intro n hleast
      rw [hl, commentReach_of_isLeast hleast]
      rfl
    · intro hnone
      obtain ⟨hopen, htake⟩ := commentReach_of_not_closes hnone
      rw [hl, hopen, htake]
      rfl
  · have hne : chars (l :: after) ≠ [] := by
      have hmem : l ∈ ofText flavor source.toList := by simp [h]
      simp [text_ne_nil hmem]
    obtain ⟨c, rest, hchars⟩ := List.exists_cons_of_ne_nil hne
    rw [(eq_of_ofText h hchars).1] at hkind
    obtain ⟨rfl, body, rfl⟩ := eq_of_reach_blockComment hkind
    exact ⟨body, hchars⟩

/-- A comment with a slash after two stars, which does not close it, and one after a single star. -/
theorem comment_of_ofText_stars :
    let source := "/***/a*/ b"
    let body := "**/a*/ b".toList
    ∃ l after, ofText .official source.toList = [] ++ l :: after ∧
      ClosesComment body 5 ∧ (∀ m < 5, ¬ ClosesComment body m) ∧
      l = ⟨.blockComment, "/***/a*/".toList⟩ := by
  intro source body
  have hcloses : ClosesComment body 5 := by decide +kernel
  have hfirst : ∀ m < 5, ¬ ClosesComment body m := by decide +kernel
  have hleast : IsLeast {m | ClosesComment body m} 5 :=
    ⟨hcloses, fun m hm => Nat.le_of_not_lt fun hlt => hfirst m hlt hm⟩
  have hlexemes : ofText .official source.toList =
      [] ++ ⟨.blockComment, "/***/a*/".toList⟩ :: [⟨.whitespace, [' ']⟩, ⟨.identifier, ['b']⟩] := by
    decide +kernel
  exact ⟨_, _, hlexemes, hcloses, hfirst, ((comment_of_ofText hlexemes).1 body rfl).1 5 hleast⟩

/-- After two stars a slash does not close the comment: it is unknown text, or goes on to a later end. -/
theorem exists_comment_missed :
    ['*', '/'] <+: "/***/".toList.drop 3 ∧
      ofText .official "/***/".toList = [⟨.unknown, "/***/".toList⟩] ∧
      ofText .official "/***/ main */".toList = [⟨.blockComment, "/***/ main */".toList⟩] := by
  decide +kernel

/-- **A string ends at the first quote of its line that closes it.** If no quote closes it, it is
unknown text up to the end of the line, but for a backslash that takes no character: this one is a
lexeme of its own. -/
theorem string_of_ofText {source : String}
    (h : ofText flavor source.toList = before ++ l :: after)
    (hbody : chars (l :: after) = '"' :: body) :
    (∀ n, IsLeast {m | ClosesString (lineOf body) m} n →
      l = ⟨.string, '"' :: (lineOf body).take (n + 1)⟩) ∧
    ((∀ n, ¬ ClosesString (lineOf body) n) →
      l = ⟨.unknown, '"' :: dropOpen '\\' (lineOf body)⟩ ∧
        (Odd (trailing '\\' (lineOf body)) → after.head? = some ⟨.unknown, ['\\']⟩)) := by
  obtain ⟨hl, hafter⟩ := eq_of_ofText h hbody
  rw [reach_string] at hl hafter
  constructor
  · intro n hleast
    obtain ⟨hclosed, htake⟩ := stringReach_of_isLeast hleast
    rw [hl, hclosed, htake]
    rfl
  · intro hnone
    obtain ⟨hopen, htake, hdrop⟩ := stringReach_of_not_closes hnone
    refine ⟨by rw [hl, hopen, htake]; rfl, fun hodd => ?_⟩
    obtain ⟨rest, hrest⟩ := hdrop hodd
    rw [hafter, hrest, ofText_cons]
    rfl

/-- A quote after a backslash does not close the string. -/
theorem string_of_ofText_escape :
    let source := "\"a\\\"b\" c"
    let body := "a\\\"b\" c".toList
    ∃ l after, ofText .official source.toList = [] ++ l :: after ∧
      ClosesString (lineOf body) 4 ∧ (∀ m < 4, ¬ ClosesString (lineOf body) m) ∧
      l = ⟨.string, "\"a\\\"b\"".toList⟩ := by
  intro source body
  have hcloses : ClosesString (lineOf body) 4 := by decide +kernel
  have hfirst : ∀ m < 4, ¬ ClosesString (lineOf body) m := by decide +kernel
  have hleast : IsLeast {m | ClosesString (lineOf body) m} 4 :=
    ⟨hcloses, fun m hm => Nat.le_of_not_lt fun hlt => hfirst m hlt hm⟩
  have hlexemes : ofText .official source.toList = [] ++ ⟨.string, "\"a\\\"b\"".toList⟩ ::
      [⟨.whitespace, [' ']⟩, ⟨.identifier, ['c']⟩] := by
    decide +kernel
  exact ⟨_, _, hlexemes, hcloses, hfirst, (string_of_ofText hlexemes rfl).1 4 hleast⟩

/-- A string that is not closed before a backslash at the end of the line does not go up to the end. -/
theorem exists_string_cut :
    lineOf "a\\".toList = "a\\".toList ∧
      ofText .official "\"a\\".toList = [⟨.unknown, "\"a".toList⟩, ⟨.unknown, ['\\']⟩] := by
  decide +kernel

end Lexemes

end QuestScript.Lexeme
