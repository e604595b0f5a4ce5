import QuestScript.Proofs.Fix.Improve

/-! # Words that are written otherwise

A keyword written in lowercase, a name replaced by one that was suggested and a name written as it is
declared improve a document (`improves_keyword`, `improves_suggestion`, `improves_casing`). -/

namespace QuestScript

open Ast Lexeme

variable {flavor : Flavor} {source : String} {q : Quest Word flavor} {casings : List String}
  {d : Defect}

/-! ### Keywords -/

/-- **A word is written otherwise.** -/
theorem improves_respell (h : Parse.Reads flavor source q) {ms ns : List (Leaf Word)} {l : Leaf Word}
    (hl : q.leaves = ms ++ l :: ns) (hword : l.token.kind.isWord = true) {name : String}
    (hname : IsWordText name.toList) (hkind : wordKind flavor name.toList = l.token.kind)
    (hcount : d.count flavor casings
      (ms.map Leaf.mark ++ (l.role, ⟨l.token.kind, name.toList⟩) :: ns.map Leaf.mark) <
        d.count flavor casings (ms.map Leaf.mark ++ l.mark :: ns.map Leaf.mark)) :
    d.Improves flavor source casings [⟨l.token.span, name⟩] := by
  have htokens : q.tokens = ms.map Leaf.token ++ l.token :: ns.map Leaf.token := by
    rw [Quest.tokens, hl, List.map_append, List.map_cons]
  have hspells := TokenStream.spells_respell h.known (h.significant.trans htokens) hword hname hkind
  have hmarks : q.marks = ms.map Leaf.mark ++ l.mark :: ns.map Leaf.mark := by
    rw [Quest.marks, hl, List.map_append, List.map_cons]
  have hnew := marks_respell (q.marks_eq.symm.trans hmarks) name.toList
  have hsnd : ∀ ls : List (Leaf Word), (ls.map Leaf.mark).map Prod.snd =
      (ls.map Leaf.token).map Token.lexeme := by
    intro ls
    rw [List.map_map, List.map_map]
    rfl
  rw [hsnd, hsnd] at hnew
  refine improves_of_spells h hspells q ?_ ?_
  · rw [htokens, List.map_append, List.map_append, List.map_map, List.map_map]
    simp only [List.map_cons, List.map_map]
    rfl
  · rw [hnew, hmarks]
    exact hcount

/-- **A keyword is written in lowercase.** -/
theorem improves_keyword (h : Parse.Reads flavor source q) {l : Leaf Word} (hl : l ∈ q.leaves)
    {f : Finding} (hf : f ∈ ((parse flavor source).checker casings).keywordFindings l.token)
    {fix : QuickFix} (hfix : fix ∈ f.fixes) :
    f.problem.defect? = some .keywordCasing ∧
      Defect.keywordCasing.Improves flavor source casings fix.edits := by
  unfold Checker.keywordFindings at hf
  split at hf
  · cases hf
  rename_i hbad
  rw [List.mem_singleton] at hf
  rw [hf, List.mem_singleton] at hfix
  rw [hf, hfix]
  refine ⟨rfl, ?_⟩
  have hknown := (h.isFor casings).knows _ (List.mem_map_of_mem hl)
  obtain ⟨k, hk⟩ : ∃ k, l.token.kind = .keyword k := by
    cases hkind : l.token.kind with
    | keyword k => exact ⟨k, rfl⟩
    | _ => exact absurd (by rw [hkind]; rfl) hbad
  have hreserved : wordKind flavor l.token.text.toList = l.token.kind :=
    hknown.wordKind (by rw [hk]; rfl)
  obtain ⟨ms, ns, hleaves⟩ := List.append_of_mem hl
  rw [hknown.lowercase_text hk]
  refine improves_respell h hleaves (by rw [hk]; rfl) (isWordText_spelling k) ?_ ?_
  · rw [hk] at hreserved ⊢
    exact wordKind_spelling hreserved
  · refine count_lowercase_lt ?_ ?_
    · show isMiswritten casings (l.role, l.token.lexeme) = true
      rw [isMiswritten_lexeme, Bool.not_eq_true']
      exact Bool.eq_false_of_not_eq_true hbad
    · rw [String.ofList_toList, k.lowercase_spelling]

/-! ### References -/

theorem foldl_consider (name : String) (candidates : List String) (best : Spelling.Best Float) :
    (candidates.foldl (Spelling.consider name) best).candidate = best.candidate ∨
      ∃ other ∈ candidates,
        (candidates.foldl (Spelling.consider name) best).candidate = some other := by
  induction candidates generalizing best with
  | nil => exact .inl rfl
  | cons candidate candidates ih =>
    rw [List.foldl_cons]
    rcases ih (Spelling.consider name best candidate) with hbest | ⟨other, hother, hbest⟩
    · have hone : (Spelling.consider name best candidate).candidate = best.candidate ∨
          (Spelling.consider name best candidate).candidate = some candidate := by
        unfold Spelling.consider
        split
        · split
          · exact .inr rfl
          · exact .inl rfl
        · exact .inl rfl
      rcases hone with hone | hone
      · exact .inl (hbest.trans hone)
      · exact .inr ⟨candidate, by simp, hbest.trans hone⟩
    · exact .inr ⟨other, by simp [hother], hbest⟩

theorem suggest_mem {name other : String} {candidates : List String}
    (h : suggest name candidates = some other) : other ∈ candidates := by
  unfold suggest Spelling.closest at h
  rcases foldl_consider name candidates ⟨Cost.ofNat (name.toList.length * 2 / 5 + 1), none⟩ with
    hnone | ⟨candidate, hmem, hsome⟩
  · rw [h] at hnone
    cases hnone
  · rw [h] at hsome
    rwa [Option.some.inj hsome]

theorem Parse.Reads.names_eq (h : Parse.Reads flavor source q) (kind : SymbolKind) :
    ((parse flavor source).checker casings).catalog.names kind =
      namesOf flavor (stateNames q.marks) kind := by
  have hfor := h.isFor casings
  rw [q.stateNames_marks]
  by_cases hkind : kind = .state
  · have hdeclarations := congrArg (List.map Token.text) hfor.declarations
    rw [List.map_map, List.map_map] at hdeclarations
    rw [hkind, Catalog.names_state]
    exact hdeclarations
  · rw [Catalog.names_builtin hkind, hfor.flavor_eq]
    cases kind with
    | state => exact absurd rfl hkind
    | _ => rfl

theorem Parse.Reads.isWord_name (h : Parse.Reads flavor source q) {kind : SymbolKind} {name : String}
    (hname : name ∈ namesOf flavor (stateNames q.marks) kind) :
    IsWordText name.toList ∧ wordKind flavor name.toList = .identifier := by
  by_cases hkind : kind = .state
  · rw [hkind, namesOf, q.stateNames_marks] at hname
    obtain ⟨x, hx, rfl⟩ := List.mem_map.mp hname
    have hknown := (h.isFor []).knows _ (Quest.name_mem_tokens hx)
    have hword : x.name.1.kind.isWord = true := by rw [x.name.2]; rfl
    exact ⟨hknown.word hword, (hknown.wordKind hword).trans x.name.2⟩
  · have hbuiltin : name ∈ (Builtin.ofKind flavor kind).map Builtin.name := by
      cases kind with
      | state => exact absurd rfl hkind
      | _ => exact hname
    obtain ⟨b, hb, rfl⟩ := List.mem_map.mp hbuiltin
    exact Builtin.name_isWord hb

section References
variable {kind : SymbolKind} {name : Word .identifier} {other : String}

theorem Parse.Reads.lookup_eq (h : Parse.Reads flavor source q) (casings : List String)
    (kind : SymbolKind) (name : String) :
    declared? flavor (stateNames q.marks) kind name =
      (((parse flavor source).checker casings).catalog.lookup? kind name).map Symbol.name := by
  rw [q.stateNames_marks]
  exact (h.isFor casings).declared?_eq kind name

theorem improves_rename (h : Parse.Reads flavor source q)
    (hl : (.refers kind name : Leaf Word) ∈ q.leaves)
    (hother : other ∈ namesOf flavor (stateNames q.marks) kind)
    (hcount : ∀ as bs, q.marks = as ++ (.refers kind, name.1.lexeme) :: bs →
      d.count flavor casings (as ++ (.refers kind, ⟨name.1.kind, other.toList⟩) :: bs) <
        d.count flavor casings (as ++ (.refers kind, name.1.lexeme) :: bs)) :
    d.Improves flavor source casings [⟨name.1.span, other⟩] := by
  obtain ⟨hword, hkind⟩ := h.isWord_name hother
  obtain ⟨ms, ns, hleaves⟩ := List.append_of_mem hl
  have hmarks : q.marks = ms.map Leaf.mark ++ (.refers kind, name.1.lexeme) :: ns.map Leaf.mark := by
    rw [Quest.marks, hleaves, List.map_append, List.map_cons]
    rfl
  have hname : name.1.kind.isWord = true := by
    rw [name.2]
    rfl
  exact improves_respell h hleaves hname hword (hkind.trans name.2.symm) (hcount _ _ hmarks)

/-- **A name that nothing is called is replaced by a suggestion.** -/
theorem improves_suggestion (h : Parse.Reads flavor source q)
    (hl : (.refers kind name : Leaf Word) ∈ q.leaves)
    (hlookup : ((parse flavor source).checker casings).catalog.lookup? kind name.1.text = none)
    (hother : suggest name.1.text
      (((parse flavor source).checker casings).catalog.names kind) = some other) :
    Defect.unresolved.Improves flavor source casings [⟨name.1.span, other⟩] := by
  have hmem := suggest_mem hother
  rw [h.names_eq] at hmem
  have hnone := h.lookup_eq casings kind name.1.text
  rw [hlookup] at hnone
  refine improves_rename h hl hmem fun as bs hmarks => ?_
  rw [hmarks] at hmem hnone
  refine count_resolve_lt ?_ ?_
  · show (declared? _ _ _ name.1.lexeme.word).isNone = true
    rw [Token.word_lexeme, hnone]
    rfl
  · show String.ofList other.toList ∈ _
    rw [String.ofList_toList]
    exact hmem

/-- **A name is written as it is declared.** -/
theorem improves_casing (h : Parse.Reads flavor source q)
    (hl : (.refers kind name : Leaf Word) ∈ q.leaves) {symbol : Symbol}
    (hlookup : ((parse flavor source).checker casings).catalog.lookup? kind name.1.text = some symbol)
    (hne : name.1.text ≠ symbol.name) :
    Defect.referenceCasing.Improves flavor source casings [⟨name.1.span, symbol.name⟩] := by
  have hdeclared := h.lookup_eq casings kind name.1.text
  rw [hlookup] at hdeclared
  refine improves_rename h hl (List.mem_of_find?_eq_some hdeclared) fun as bs hmarks => ?_
  rw [hmarks] at hdeclared
  refine count_recase_lt ?_ ?_
  · show declared? _ _ _ name.1.lexeme.word = some (String.ofList symbol.name.toList)
    rw [Token.word_lexeme, String.ofList_toList]
    exact hdeclared
  · show name.1.lexeme.word ≠ String.ofList symbol.name.toList
    rw [Token.word_lexeme, String.ofList_toList]
    exact hne

end References

end QuestScript
