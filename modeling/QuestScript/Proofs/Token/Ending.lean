import QuestScript.Proofs.Token.Delimiter

/-! # Where unknown text ends

A lexeme ends before a text if the lexer, reading on from its first character, stops there (`Ends`).
For known lexemes `Closes` tells when this is so; unknown text ends in one of four ways (`EndsUnknown`),
for which the next two characters matter. So what comes after the lexemes of a text may be replaced
wherever it ends lines and comments in the same way (`ofText_replace`). -/

namespace QuestScript.Lexeme

variable {flavor : Flavor} {l : Lexeme} {as bs : List Lexeme} {text tail tail' : List Char}

/-- The lexeme ends before the text. -/
def Ends (flavor : Flavor) (l : Lexeme) (tail : List Char) : Prop :=
  ∃ c rest, l.text = c :: rest ∧ reach flavor c (rest ++ tail) = (l.kind, rest.length)

/-- A string that is not closed stops before the text: before the end of a line, or before a backslash
there. -/
def StopsString (tail : List Char) : Prop :=
  ∀ c rest, tail = c :: rest →
    isLineEnd c = true ∨ c = '\\' ∧ ∀ d ∈ rest.head?, isLineEnd d = true

/-- No comment starts with a slash before the text. -/
def StopsSlash (tail : List Char) : Prop := ∀ c ∈ tail.head?, c ≠ '/' ∧ c ≠ '*'

/-- How unknown text ends before the text. -/
inductive EndsUnknown (flavor : Flavor) (l : Lexeme) (tail : List Char) : Prop
  /-- A comment that is not closed, before the end of the document or the last star. -/
  | comment (h : tail = [] ∨ tail = ['*'])
  /-- A string that is not closed. -/
  | string (h : StopsString tail) (hnew : ∀ tail', StopsString tail' → Ends flavor l tail')
  /-- A slash that starts no comment. -/
  | slash (htext : l.text = ['/']) (h : StopsSlash tail)
    (hnew : ∀ tail', StopsSlash tail' → Ends flavor l tail')
  /-- A character that the lexer does not know. -/
  | single (htext : l.text.length = 1) (hnew : ∀ tail', Ends flavor l tail')

/-! ### Reading on -/

theorem commentReach_of_open {n : Nat} (h : commentReach text = (false, n)) :
    n ≤ text.length ∧ (text.drop n = [] ∨ text.drop n = ['*']) := by
  have hreach : (commentReach text).1 = false := by rw [h]
  have hlength := (not_delimits_of_commentReach hreach).2
  rw [h] at hlength
  refine ⟨by dsimp only at hlength; omega, ?_⟩
  by_cases htakes : takesNext '*' text = true
  · rw [if_pos htakes] at hlength
    have hlast := eq_concat_of_takesNext htakes
    have hinit : text.dropLast.length = n := by
      rw [List.length_dropLast, hlength, Nat.add_sub_cancel]
    rw [hlast, ← hinit, List.drop_left]
    exact .inr rfl
  · rw [if_neg htakes, Nat.add_zero] at hlength
    exact .inl (List.drop_eq_nil_of_le hlength.le)

theorem stopsString_nil : StopsString [] := fun _ _ h => by cases h

theorem stopsString_lineEnd {c : Char} (h : isLineEnd c = true) (rest : List Char) :
    StopsString (c :: rest) := by
  rintro d _ ⟨⟩
  exact .inl h

theorem stringReach_of_stops (h : StopsString tail) : stringReach tail = (false, 0) := by
  fun_cases stringReach tail with
  | case1 => rfl
  | case2 text =>
    rcases h _ _ rfl with hend | ⟨hslash, -⟩
    · exact absurd hend (by decide)
    · exact absurd hslash (by decide)
  | case3 => rfl
  | case4 => rfl
  | case5 c text hc =>
    rcases h _ _ rfl with hend | ⟨-, hend⟩
    · exact absurd hend (by decide)
    · exact absurd (hend c rfl) hc
  | case6 => rfl
  | case7 c text hquote h1 h2 hc =>
    rcases h _ _ rfl with hend | ⟨hslash, -⟩
    · exact absurd hend hc
    · exact absurd hslash (ne_of_not_pair h1 h2)

/-- **A string that is not closed** depends on its own characters and on that it stops before what comes
next. -/
theorem stringReach_of_open {n : Nat} (h : stringReach text = (false, n)) :
    n ≤ text.length ∧ StopsString (text.drop n) ∧
      ∀ tail, StopsString tail → stringReach (text.take n ++ tail) = (false, n) := by
  fun_induction stringReach text generalizing n with
  | case1 =>
    obtain rfl : 0 = n := congrArg Prod.snd h
    exact ⟨Nat.le_refl _, stopsString_nil, fun _ => stringReach_of_stops⟩
  | case2 => cases h
  | case3 =>
    obtain rfl : 0 = n := congrArg Prod.snd h
    refine ⟨Nat.zero_le _, ?_, fun _ => stringReach_of_stops⟩
    rintro c rest ⟨⟩
    exact .inr ⟨rfl, fun d hd => by cases hd⟩
  | case4 c text hc =>
    obtain rfl : 0 = n := congrArg Prod.snd h
    refine ⟨Nat.zero_le _, ?_, fun _ => stringReach_of_stops⟩
    rintro d rest ⟨⟩
    exact .inr ⟨rfl, fun d hd => by cases hd; exact hc⟩
  | case5 c text hc ih =>
    obtain ⟨hopen, rfl⟩ := Prod.mk.inj h
    obtain ⟨hle, hstops, htail⟩ := ih (Prod.ext hopen rfl)
    refine ⟨by simpa using hle, by simpa using hstops, fun tail hnew => ?_⟩
    rw [List.take_succ_cons, List.take_succ_cons, List.cons_append, List.cons_append,
      stringReach, if_neg hc, htail tail hnew]
  | case6 c text hquote h1 h2 hc =>
    obtain rfl : 0 = n := congrArg Prod.snd h
    exact ⟨Nat.zero_le _, stopsString_lineEnd hc text, fun _ => stringReach_of_stops⟩
  | case7 c text hquote h1 h2 hc ih =>
    have hslash : c ≠ '\\' := ne_of_not_pair h1 h2
    obtain ⟨hopen, rfl⟩ := Prod.mk.inj h
    obtain ⟨hle, hstops, htail⟩ := ih (Prod.ext hopen rfl)
    refine ⟨by simpa using hle, by simpa using hstops, fun tail hnew => ?_⟩
    rw [List.take_succ_cons, List.cons_append, stringReach_cons hquote hslash (by simpa using hc),
      htail tail hnew]

theorem slashReach_of_stops (h : StopsSlash tail) : slashReach tail = (.unknown, 0) := by
  unfold slashReach
  split
  · exact absurd rfl (h '/' rfl).1
  · exact absurd rfl (h '*' rfl).2
  · rfl

/-- **How unknown text ends.** -/
theorem endsUnknown_of_reach {c : Char} {n : Nat} (h : reach flavor c text = (.unknown, n)) :
    n ≤ text.length ∧ EndsUnknown flavor ⟨.unknown, c :: text.take n⟩ (text.drop n) := by
  have hlength : ∀ m, m ≤ text.length → (text.take m).length = m := fun m hm => by
    rw [List.length_take, Nat.min_eq_left hm]
  unfold reach at h
  split_ifs at h with hblank hslash hquote hdigit hword
  · cases h
  · subst hslash
    have hreach : ∀ rest, reach flavor '/' rest = slashReach rest := fun _ => rfl
    unfold slashReach at h
    split at h
    · cases h
    · rename_i text
      rcases hcomment : commentReach text with ⟨_ | _, m⟩
      · rw [hcomment] at h
        obtain rfl : m + 1 = n := congrArg Prod.snd h
        obtain ⟨hle, hend⟩ := commentReach_of_open hcomment
        exact ⟨Nat.succ_le_succ hle, .comment hend⟩
      · rw [hcomment] at h
        cases h
    · rename_i hline hblock
      obtain rfl : 0 = n := congrArg Prod.snd h
      refine ⟨Nat.zero_le _, .slash rfl ?_ fun tail hstops => ⟨'/', [], rfl, slashReach_of_stops hstops⟩⟩
      rw [List.drop_zero]
      intro d hd
      cases text with
      | nil => cases hd
      | cons e rest =>
        cases hd
        exact ⟨fun he => hline rest (by rw [he]), fun he => hblock rest (by rw [he])⟩
  · rcases hstring : stringReach text with ⟨_ | _, m⟩
    · rw [hstring] at h
      obtain rfl : m = n := congrArg Prod.snd h
      obtain ⟨hle, hstops, htail⟩ := stringReach_of_open hstring
      refine ⟨hle, .string hstops fun tail hnew => ⟨c, text.take m, rfl, ?_⟩⟩
      rw [hlength m hle, hquote, reach_string, htail tail hnew]
      rfl
    · rw [hstring] at h
      cases h
  · cases h
  · dsimp only [wordKind] at h
    split at h <;> cases h
  · obtain ⟨hkind, rfl⟩ := Prod.mk.inj h
    refine ⟨Nat.zero_le _, .single rfl fun tail => ⟨c, [], rfl, ?_⟩⟩
    rw [reach, if_neg hblank, if_neg hslash, if_neg hquote, if_neg hdigit, if_neg hword, hkind]
    rfl

theorem reach_snd_le {c : Char} : (reach flavor c text).2 ≤ text.length := by
  rcases hreach : reach flavor c text with ⟨k, n⟩
  by_cases hk : k = .unknown
  · subst hk
    exact (endsUnknown_of_reach hreach).1
  · exact (reach_take_append hreach hk).1

/-! ### Ends of lexemes -/

theorem Ends.ofText_append (h : Ends flavor l tail) :
    ofText flavor (l.text ++ tail) = l :: ofText flavor tail := by
  obtain ⟨c, rest, htext, hreach⟩ := h
  rw [htext, List.cons_append, ofText_cons, hreach, List.take_left, List.drop_left, ← htext]

theorem ends_of_ofText (h : ofText flavor text = as ++ l :: bs) : Ends flavor l (chars bs) := by
  have hmem : l ∈ ofText flavor text := by simp [h]
  obtain ⟨c, rest, htext⟩ := List.exists_cons_of_ne_nil (text_ne_nil hmem)
  have hchars : chars (l :: bs) = c :: (rest ++ chars bs) := by rw [chars_cons, htext]; rfl
  have hl := (eq_of_ofText h hchars).1
  have hrest : rest = (rest ++ chars bs).take (reach flavor c (rest ++ chars bs)).2 := by
    have := congrArg Lexeme.text hl
    rw [htext] at this
    exact (List.cons.inj this).2
  have hlength := congrArg List.length hrest
  rw [List.length_take, Nat.min_eq_left reach_snd_le] at hlength
  exact ⟨c, rest, htext, Prod.ext (congrArg Lexeme.kind hl).symm hlength.symm⟩

theorem Ends.isWhole (h : Ends flavor l tail) (hk : l.kind ≠ .unknown) :
    IsWhole flavor l ∧ Closes l.kind tail := by
  obtain ⟨c, rest, htext, hreach⟩ := h
  obtain ⟨-, hcloses, hnew⟩ := reach_take_append hreach hk
  rw [List.take_left] at hnew
  rw [List.drop_left] at hcloses
  have hwhole := hnew [] (closes_nil l.kind)
  rw [List.append_nil] at hwhole
  exact ⟨⟨c, rest, htext, hwhole⟩, hcloses⟩

theorem IsWhole.ends (h : IsWhole flavor l) (hk : l.kind ≠ .unknown) (htail : Closes l.kind tail) :
    Ends flavor l tail := by
  obtain ⟨c, rest, htext, hreach⟩ := h
  have hnew := (reach_take_append hreach hk).2.2 tail htail
  rw [List.take_length] at hnew
  exact ⟨c, rest, htext, hnew⟩

theorem Ends.unknown (h : Ends flavor l tail) (hk : l.kind = .unknown) :
    EndsUnknown flavor l tail := by
  obtain ⟨c, rest, htext, hreach⟩ := h
  rw [hk] at hreach
  have hend := (endsUnknown_of_reach hreach).2
  rw [List.take_left, List.drop_left, ← htext, ← hk] at hend
  exact hend

/-! ### Replacing what comes after -/

/-- The lexer ends lexemes before one text wherever it ends them before the other. -/
structure Alike (tail tail' : List Char) : Prop where
  head : tail.head? = tail'.head?
  star : tail = ['*'] → tail' = ['*']
  stops : StopsString tail → StopsString tail'

theorem Alike.nil (h : Alike tail tail') (hnil : tail = []) : tail' = [] := by
  have hhead := h.head
  rw [hnil] at hhead
  exact List.head?_eq_none_iff.mp hhead.symm

theorem Ends.of_alike (h : Ends flavor l tail) (halike : Alike tail tail') : Ends flavor l tail' := by
  by_cases hk : l.kind = .unknown
  · cases h.unknown hk with
    | comment hend =>
      have heq : tail' = tail := by
        rcases hend with rfl | rfl
        · exact halike.nil rfl
        · exact halike.star rfl
      rwa [heq]
    | string hstops hnew => exact hnew _ (halike.stops hstops)
    | slash _ hstops hnew => exact hnew _ (by rwa [StopsSlash, ← halike.head])
    | single _ hnew => exact hnew _
  · obtain ⟨hwhole, hcloses⟩ := h.isWhole hk
    exact hwhole.ends hk ((closes_congr halike.head).mp hcloses)

/-- After the same characters the texts are alike if both are empty or neither is, and the second ends
the line where the first does. -/
theorem Alike.append {xs : List Char} (hxs : xs ≠ []) (hnil : tail = [] → tail' = [])
    (hline : ∀ c ∈ tail.head?, isLineEnd c = true → ∀ d ∈ tail'.head?, isLineEnd d = true) :
    Alike (xs ++ tail) (xs ++ tail') where
  head := head?_append_of_ne_nil hxs _ _
  star h := by
    obtain ⟨x, xs, rfl⟩ := List.exists_cons_of_ne_nil hxs
    obtain ⟨rfl, hrest⟩ := List.cons.inj h
    obtain ⟨rfl, rfl⟩ := List.append_eq_nil_iff.mp hrest
    rw [hnil rfl]
    rfl
  stops h := by
    obtain ⟨x, xs, rfl⟩ := List.exists_cons_of_ne_nil hxs
    rintro c rest ⟨⟩
    refine (h x (xs ++ tail) rfl).imp_right fun ⟨hx, hend⟩ => ⟨hx, fun d hd => ?_⟩
    cases xs with
    | nil =>
      cases tail with
      | nil =>
        rw [hnil rfl] at hd
        cases hd
      | cons e tail => exact hline e rfl (hend e rfl) d hd
    | cons y xs => exact hend d hd

/-- **What comes after the lexemes of a text may be replaced** by what ends the last of them as well, if
it ends the line where the other text does. -/
theorem ofText_replace (h : ofText flavor (chars as ++ tail) = as ++ ofText flavor tail)
    (hnil : tail = [] → tail' = [])
    (hline : ∀ c ∈ tail.head?, isLineEnd c = true → ∀ d ∈ tail'.head?, isLineEnd d = true)
    (hlast : ∀ l ∈ as.getLast?, Ends flavor l tail → Ends flavor l tail') :
    ofText flavor (chars as ++ tail') = as ++ ofText flavor tail' := by
  induction as with
  | nil => rfl
  | cons a as ih =>
    have hends : Ends flavor a (chars as ++ tail) := by
      have hend := ends_of_ofText (show _ = [] ++ a :: (as ++ ofText flavor tail) from h)
      rwa [chars_append, chars_ofText] at hend
    have hnext : ofText flavor (chars as ++ tail) = as ++ ofText flavor tail := by
      have hchars := ofText_chars (show _ = [a] ++ (as ++ ofText flavor tail) from h)
      rwa [chars_append, chars_ofText] at hchars
    rw [chars_cons, List.append_assoc, List.cons_append]
    cases as with
    | nil => exact (hlast a rfl hends).ofText_append
    | cons b as =>
      have hne : chars (b :: as) ≠ [] := by
        have hb : b.text ≠ [] := text_ne_nil (by rw [hnext]; simp)
        simp [hb]
      rw [(hends.of_alike (.append hne hnil hline)).ofText_append, ih hnext hlast]

theorem ofText_replace_alike (h : ofText flavor (chars as ++ tail) = as ++ ofText flavor tail)
    (halike : Alike tail tail') : ofText flavor (chars as ++ tail') = as ++ ofText flavor tail' := by
  refine ofText_replace h halike.nil (fun c hc hend d hd => ?_) fun l _ hl => hl.of_alike halike
  rw [← halike.head] at hd
  rwa [← Option.mem_unique hc hd]

theorem ofText_split (h : ofText flavor text = as ++ bs) :
    ofText flavor (chars as ++ chars bs) = as ++ ofText flavor (chars bs) := by
  rw [← chars_append, ← h, chars_ofText, ofText_chars h, h]

end QuestScript.Lexeme
