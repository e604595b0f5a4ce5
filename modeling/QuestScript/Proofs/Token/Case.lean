import QuestScript.Proofs.Extension.Words
import QuestScript.Proofs.Token.Delimiter

/-! # Words and letter case

A word goes as far as there are letters, digits and underscores, and is a keyword if it is spelled as one
in some letter case (`wordKind_eq_keyword_iff`). All other lexemes are told by characters that are no
letters, so the lexemes of a text in lowercase are those of the text, in lowercase (`ofText_lowered`), and
a change of letter case moves no end of a lexeme and changes no kind (`word_of_ofText`). -/

namespace QuestScript

/-! ### Spellings of keywords -/

theorem Keyword.isReservedIn_iff {k : Keyword} {flavor : Flavor} :
    k.isReservedIn flavor = true ↔ (flavor = .official → k ∉ conditionals) := by
  cases flavor with
  | eoserv => simp [isReservedIn]
  | official => simp [isReservedIn, conditionals]

namespace Lexeme

/-- **A word is a keyword exactly if the flavor reserves its spelling.** -/
theorem wordKind_eq_keyword_iff {flavor : Flavor} {word : List Char} {k : Keyword} :
    wordKind flavor word = .keyword k ↔
      word.map Char.toLower = k.spelling.toList ∧ k.isReservedIn flavor = true := by
  have hspelled : ∀ j : Keyword, Ascii.sameWord j.spelling.toList word = true ↔
      word.map Char.toLower = j.spelling.toList := by
    intro j
    rw [Ascii.sameWord_iff, j.lower_spelling]
    exact eq_comm
  constructor
  · intro h
    obtain ⟨hfind, hsame⟩ := sameWord_of_wordKind h
    have hreserved := List.find?_some hfind
    rw [Bool.and_eq_true] at hreserved
    exact ⟨(hspelled k).mp hsame, hreserved.1⟩
  · rintro ⟨hlower, hreserved⟩
    have hk : (k.isReservedIn flavor && Ascii.sameWord k.spelling.toList word) = true := by
      rw [hreserved, (hspelled k).mpr hlower]
      rfl
    have hsome : (Keyword.ofWord? flavor word).isSome = true :=
      List.find?_isSome.mpr ⟨k, k.mem_all, hk⟩
    obtain ⟨j, hj⟩ := Option.isSome_iff_exists.mp hsome
    have hfound := List.find?_some hj
    rw [Bool.and_eq_true, hspelled j] at hfound
    have hjk : j = k := Keyword.spelling_inj (String.toList_injective (hfound.2.symm.trans hlower))
    rw [wordKind, hj, hjk]

/-! ### Characters that are no letters -/

theorem apply_toLower {α : Type} {f : Char → α} {a : α} (h : ∀ c, startsWord c = true → f c = a)
    (c : Char) : f c.toLower = f c := by
  by_cases hc : startsWord c = true
  · rw [h c hc, h c.toLower (by rw [startsWord_toLower, hc])]
  · rw [toLower_of_not_startsWord (eq_false_of_ne_true hc)]

theorem toLower_eq_iff {c d : Char} (hd : startsWord d = false) : c.toLower = d ↔ c = d := by
  have hbeq : (c.toLower == d) = (c == d) :=
    apply_toLower (f := (· == d)) (fun _ hc => beq_false_of_ne (ne_of_startsWord hd hc)) c
  rw [← beq_iff_eq, hbeq, beq_iff_eq]

theorem isBlank_toLower (c : Char) : isBlank c.toLower = isBlank c :=
  apply_toLower (fun _ => isBlank_of_startsWord) c

theorem isDigit_toLower (c : Char) : isDigit c.toLower = isDigit c :=
  apply_toLower (fun _ => not_isDigit_of_startsWord) c

theorem isWordChar_toLower (c : Char) : isWordChar c.toLower = isWordChar c := by
  rw [isWordChar, startsWord_toLower, isDigit_toLower, isWordChar]

theorem isLineEnd_toLower (c : Char) : isLineEnd c.toLower = isLineEnd c := by
  refine apply_toLower (a := false) (fun d hd => ?_) c
  simp [isLineEnd, ne_of_startsWord (d := '\r') (by decide) hd,
    ne_of_startsWord (d := '\n') (by decide) hd]

theorem punctuation_toLower (c : Char) : punctuation? c.toLower = punctuation? c := by
  refine apply_toLower (a := none) (fun d hd => ?_) c
  unfold punctuation?
  split <;> first | rfl | cases hd

/-! ### Lexemes in lowercase -/

theorem run_toLower {p : Char → Bool} (h : ∀ c, p c.toLower = p c) (text : List Char) :
    run p (text.map Char.toLower) = run p text := by
  have hp : p ∘ Char.toLower = p := funext h
  rw [run, List.takeWhile_map, hp, List.length_map, run]

theorem commentReach_toLower (text : List Char) :
    commentReach (text.map Char.toLower) = commentReach text := by
  fun_induction commentReach text with
  | case1 => rfl
  | case2 => rfl
  | case3 text => rfl
  | case4 c text hc ih =>
    have hlower : c.toLower ≠ '/' := mt (toLower_eq_iff (by decide)).mp hc
    show commentReach ('*' :: c.toLower :: text.map Char.toLower) = _
    rw [commentReach.eq_4 _ _ hlower, ih]
  | case5 c text h1 h2 h3 ih =>
    have hstar : c ≠ '*' := ne_of_not_pair h1 h3
    have hlower : c.toLower ≠ '*' := mt (toLower_eq_iff (by decide)).mp hstar
    rw [List.map_cons, commentReach_cons hlower, ih]

theorem stringReach_lineEnd {c : Char} (h : isLineEnd c = true) (text : List Char) :
    stringReach (c :: text) = (false, 0) := by
  rw [isLineEnd, Bool.or_eq_true, beq_iff_eq, beq_iff_eq] at h
  rcases h with rfl | rfl <;> simp [stringReach, isLineEnd]

theorem stringReach_toLower (text : List Char) :
    stringReach (text.map Char.toLower) = stringReach text := by
  fun_induction stringReach text with
  | case1 => rfl
  | case2 text => rfl
  | case3 => rfl
  | case4 c text hc =>
    show stringReach ('\\' :: c.toLower :: text.map Char.toLower) = _
    rw [stringReach, isLineEnd_toLower, if_pos hc]
  | case5 c text hc ih =>
    show stringReach ('\\' :: c.toLower :: text.map Char.toLower) = _
    rw [stringReach, isLineEnd_toLower, if_neg hc, ih]
  | case6 c text hquote h1 h2 hc =>
    have hend : isLineEnd c.toLower = true := by rw [isLineEnd_toLower, hc]
    rw [List.map_cons, stringReach_lineEnd hend]
  | case7 c text hquote h1 h2 hc ih =>
    have hslash : c ≠ '\\' := ne_of_not_pair h1 h2
    have hquote' : c.toLower ≠ '"' := mt (toLower_eq_iff (by decide)).mp hquote
    have hslash' : c.toLower ≠ '\\' := mt (toLower_eq_iff (by decide)).mp hslash
    have hend : isLineEnd c.toLower = false := by rw [isLineEnd_toLower]; simpa using hc
    rw [List.map_cons, stringReach_cons hquote' hslash' hend, ih]

theorem slashReach_toLower (text : List Char) :
    slashReach (text.map Char.toLower) = slashReach text := by
  fun_cases slashReach text with
  | case1 text =>
    have hend : ∀ c, (!isLineEnd c.toLower) = !isLineEnd c := fun c => by rw [isLineEnd_toLower]
    show slashReach ('/' :: text.map Char.toLower) = _
    rw [slashReach, run_toLower hend]
  | case2 text closed n h =>
    show slashReach ('*' :: text.map Char.toLower) = _
    rw [slashReach, commentReach_toLower, h]
  | case3 text hslash hstar =>
    cases text with
    | nil => rfl
    | cons c text =>
      have hslash : c.toLower ≠ '/' :=
        mt (toLower_eq_iff (by decide)).mp fun hc => hslash text (by rw [hc])
      have hstar : c.toLower ≠ '*' :=
        mt (toLower_eq_iff (by decide)).mp fun hc => hstar text (by rw [hc])
      rw [List.map_cons, slashReach]
      · exact fun rest hrest => hslash (List.cons.inj hrest).1
      · exact fun rest hrest => hstar (List.cons.inj hrest).1

/-- **How far a lexeme goes does not depend on letter case.** -/
theorem reach_toLower (flavor : Flavor) (c : Char) (text : List Char) :
    reach flavor c.toLower (text.map Char.toLower) = reach flavor c text := by
  have hword : Ascii.sameWord (c.toLower :: (text.map Char.toLower).take (run isWordChar text))
      (c :: text.take (run isWordChar text)) = true := by
    rw [← List.map_take, ← List.map_cons, Ascii.sameWord_iff, List.map_map]
    refine List.map_congr_left fun d _ => ?_
    exact Ascii.toLower_toLower d
  simp only [reach, isBlank_toLower, isDigit_toLower, startsWord_toLower, punctuation_toLower,
    toLower_eq_iff (d := '/') (by decide), toLower_eq_iff (d := '"') (by decide), run_toLower isBlank_toLower,
    run_toLower isDigit_toLower, run_toLower isWordChar_toLower, slashReach_toLower, stringReach_toLower,
    wordKind_congr flavor hword]

/-- The lexeme in lowercase. -/
def lowered (l : Lexeme) : Lexeme := ⟨l.kind, l.text.map Char.toLower⟩

/-- **The lexemes of a text in lowercase are those of the text, in lowercase.** -/
theorem ofText_lowered (flavor : Flavor) (text : List Char) :
    ofText flavor (text.map Char.toLower) = (ofText flavor text).map lowered := by
  fun_induction ofText flavor text with
  | case1 => rw [List.map_nil, ofText, List.map_nil]
  | case2 c text kind n h ih =>
    rw [List.map_cons, ofText_cons, reach_toLower, h, ← List.map_drop, ih, ← List.map_take, List.map_cons]
    rfl

@[simp] theorem lowered_kind (l : Lexeme) : l.lowered.kind = l.kind := rfl

theorem length_lowered (l : Lexeme) : l.lowered.text.length = l.text.length := List.length_map _

theorem eq_of_lowered {ls ms : List Lexeme} (h : ls.map lowered = ms.map lowered)
    (hchars : chars ls = chars ms) : ls = ms := by
  induction ls generalizing ms with
  | nil => exact (List.map_eq_nil_iff.mp h.symm).symm
  | cons l ls ih =>
    obtain ⟨m, rest, rfl⟩ : ∃ m rest, ms = m :: rest := by
      cases ms with
      | nil => cases h
      | cons m rest => exact ⟨m, rest, rfl⟩
    rw [List.map_cons, List.map_cons] at h
    obtain ⟨hlowered, hrest⟩ := List.cons.inj h
    have hkind : l.kind = m.kind := by rw [← lowered_kind, hlowered, lowered_kind]
    have hlength : l.text.length = m.text.length := by
      rw [← length_lowered, hlowered, length_lowered]
    rw [chars_cons, chars_cons] at hchars
    obtain ⟨htext, hchars⟩ := List.append_inj hchars hlength
    have hl : l = m := congrArg₂ mk hkind htext
    rw [hl, ih hrest hchars]

/-! ### Words of a text -/

section Word
variable {flavor : Flavor} {before after : List Lexeme} {l : Lexeme} {source : String}

/-- **A lexeme that starts with a letter or an underscore is the longest word from there**, and a keyword
exactly if it is spelled as one that the flavor reserves, in some letter case. No other lexeme is a
word. Writing a lexeme in other letter case changes nothing else. -/
theorem word_of_ofText (h : ofText flavor source.toList = before ++ l :: after) :
    ((∃ c ∈ l.text.head?, startsWord c = true) →
      l.text = (chars (l :: after)).takeWhile isWordChar ∧
      (∀ k, l.kind = .keyword k ↔ l.text.map Char.toLower = k.spelling.toList ∧
        (flavor = .official → k ∉ Keyword.conditionals)) ∧
      ((∀ k, l.kind ≠ .keyword k) → l.kind = .identifier)) ∧
    (l.kind.isWord = true → ∃ c ∈ l.text.head?, startsWord c = true) ∧
    ∀ word, Ascii.sameWord l.text word = true →
      ofText flavor (chars before ++ word ++ chars after) = before ++ ⟨l.kind, word⟩ :: after := by
  refine ⟨fun hword => ?_, fun hword => ?_, fun word hsame => ?_⟩
  · obtain ⟨c, hhead, hc⟩ := hword
    obtain ⟨rest, htext⟩ := List.head?_eq_some_iff.mp hhead
    have hl := (eq_of_ofText h (by rw [chars_cons, htext, List.cons_append])).1
    rw [reach_of_startsWord hc, take_run] at hl
    have hkind : l.kind = wordKind flavor l.text := by
      rw [hl]
    refine ⟨?_, fun k => ?_, fun hnone => ?_⟩
    · rw [chars_cons]
      nth_rewrite 2 [htext]
      rw [List.cons_append, List.takeWhile_cons_of_pos (isWordChar_of_startsWord hc)]
      exact congrArg Lexeme.text hl
    · rw [hkind, wordKind_eq_keyword_iff, Keyword.isReservedIn_iff]
    · rw [hkind] at hnone ⊢
      unfold wordKind at hnone ⊢
      split
      · rename_i k hk
        rw [hk] at hnone
        exact absurd rfl (hnone k)
      · rfl
  · have hmem : l ∈ ofText flavor source.toList := by simp [h]
    have hknown : l.kind ≠ .unknown := by
      intro hk
      rw [hk] at hword
      cases hword
    obtain ⟨c, rest, htext, hc⟩ := startsWord_of_isWord (isWhole_of_mem hmem hknown) hword
    exact ⟨c, by simp [htext], hc⟩
  · refine eq_of_lowered ?_ ?_
    · have hlower : (chars before ++ word ++ chars after).map Char.toLower =
          source.toList.map Char.toLower := by
        rw [← chars_ofText flavor source.toList, h, chars_append, chars_cons, List.map_append,
          List.map_append, ← Ascii.sameWord_iff.mp hsame, List.append_assoc, List.map_append,
          List.map_append]
      have hl : lowered ⟨l.kind, word⟩ = l.lowered := by
        rw [lowered, ← Ascii.sameWord_iff.mp hsame, lowered]
      rw [← ofText_lowered, hlower, ofText_lowered, h, List.map_append, List.map_append, List.map_cons,
        List.map_cons, hl]
    · rw [chars_ofText, chars_append, chars_cons, List.append_assoc]

/-- The word `GoTo` after a name that starts alike is the keyword, and stays it in small letters. -/
theorem word_of_ofText_goto :
    let before : List Lexeme := [⟨.identifier, "goto1".toList⟩, ⟨.whitespace, [' ']⟩]
    let l : Lexeme := ⟨.keyword .goto, "GoTo".toList⟩
    let after : List Lexeme := [⟨.leftParen, ['(']⟩]
    ofText .official "goto1 GoTo(".toList = before ++ l :: after ∧
      l.text = (chars (l :: after)).takeWhile isWordChar ∧
      ofText .official (chars before ++ "goto".toList ++ chars after) =
        before ++ ⟨.keyword .goto, "goto".toList⟩ :: after := by
  intro before l after
  have hlexemes : ofText .official "goto1 GoTo(".toList = before ++ l :: after := by decide +kernel
  obtain ⟨hword, -, hcase⟩ := word_of_ofText hlexemes
  exact ⟨hlexemes, (hword ⟨'G', rfl, by decide⟩).1, hcase _ (by decide)⟩

end Word

end Lexeme

end QuestScript
