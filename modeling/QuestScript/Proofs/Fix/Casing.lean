import QuestScript.Proofs.Fix.Progress
import QuestScript.Proofs.Fix.Respell

/-! # Letter case put right

The fix for a word in the wrong letter case writes a word of the same length in its place
(`exists_recases`). Nothing changes in what is found elsewhere: with the fix of a casing warning, a clean
document has the findings that it had before but for that one (`findings_of_casing_fix`). -/

namespace QuestScript

open Ast Lexeme

/-! ### Sites -/

/-- The problem is that a word is in the wrong letter case. -/
def Problem.isCasing : Problem → Bool
  | keywordCasing _ | referenceCasing _ => true
  | _ => false

theorem not_isCasing_of_defect {p : Problem} (h : p.defect? = none) : p.isCasing = false := by
  cases p <;> first | rfl | cases h

theorem not_isCasing_of_mem_callFindings {builtin? : Option Builtin} {name : Token}
    {arguments : Option (ArgumentList Word)} {f : Finding}
    (h : f ∈ Checker.callFindings builtin? name arguments) : f.problem.isCasing = false := by
  unfold Checker.callFindings at h
  split at h
  · exact not_isCasing_of_defect (defect?_invocationFindings _ _ f h).1
  · cases h

theorem eq_of_append_singleton {β : Type} {xs fs gs : List β} {x f : β}
    (h : xs ++ [x] = fs ++ f :: gs) (hf : f ∉ xs) : fs = xs ∧ f = x ∧ gs = [] := by
  rcases List.append_eq_append_iff.mp h with ⟨rest, rfl, hrest⟩ | ⟨rest, rfl, hrest⟩
  · cases rest with
    | nil =>
      obtain ⟨rfl, hgs⟩ := List.cons.inj hrest
      exact ⟨(List.append_nil xs), rfl, hgs.symm⟩
    | cons r rest =>
      have hlength := congrArg List.length hrest
      simp at hlength
  · cases rest with
    | nil =>
      obtain ⟨rfl, hgs⟩ := List.cons.inj hrest
      exact ⟨(List.append_nil fs).symm, rfl, hgs⟩
    | cons r rest =>
      obtain ⟨rfl, -⟩ := List.cons.inj hrest
      simp at hf

theorem exists_of_flatMap_eq {β γ : Type} {F : β → List γ} {xs : List β} {before after : List γ} {f : γ}
    (h : xs.flatMap F = before ++ f :: after) : ∃ as x bs fs gs, xs = as ++ x :: bs ∧
      F x = fs ++ f :: gs ∧ before = as.flatMap F ++ fs ∧ after = gs ++ bs.flatMap F := by
  induction xs generalizing before with
  | nil =>
    rw [List.flatMap_nil] at h
    exact absurd h.symm (by simp)
  | cons x xs ih =>
    rw [List.flatMap_cons] at h
    rcases List.append_eq_append_iff.mp h with ⟨rest, rfl, hrest⟩ | ⟨rest, hx, hrest⟩
    · obtain ⟨as, y, bs, fs, gs, rfl, hy, rfl, rfl⟩ := ih hrest
      exact ⟨x :: as, y, bs, fs, gs, rfl, hy, by simp, rfl⟩
    · cases rest with
      | nil =>
        rw [List.append_nil] at hx
        obtain ⟨as, y, bs, fs, gs, rfl, hy, hbefore, rfl⟩ := ih (show _ = [] ++ f :: after from hrest.symm)
        exact ⟨x :: as, y, bs, fs, gs, rfl, hy, by simp [hx, ← hbefore], rfl⟩
      | cons r rest =>
        obtain ⟨rfl, rfl⟩ := List.cons.inj hrest
        exact ⟨[], x, xs, before, rest, rfl, hx, rfl, rfl⟩

section Sites
variable {flavor : Flavor} {source : String} {casings : List String} {q : Quest Word flavor}
  {f : Finding} {fs gs : List Finding} {s : Site flavor}

/-- The fix of the finding writes a word in place of the one at the site, and nothing else that is
found there changes. -/
structure Recases (c : Checker) (q : Quest Word flavor) (s : Site flavor) (f : Finding)
    (rest : List Finding) (l : Leaf Word) (name : String) : Prop where
  leaf : s.leaf? = some l
  fits : l.token.Fits flavor name
  fixes : ∃ fix : QuickFix, f.fixes = [fix] ∧ fix.edits = [⟨l.token.span, name⟩]
  states : ∀ x ∈ q.states, x.name.1 ≠ l.token
  findings : ∀ d, Checker.SameSymbols c d →
    (s.map (Word.respelled l.token name)).findings d = rest

theorem recases_keyword (h : Parse.Reads flavor source q) {m : Leaf Word}
    (hs : .word m ∈ q.sites)
    (hf : ((parse flavor source).checker casings).keywordFindings m.token = fs ++ f :: gs) :
    ∃ l name, Recases ((parse flavor source).checker casings) q (.word m) f (fs ++ gs) l name := by
  obtain ⟨l, hleaf, -, htoken⟩ := Site.exists_leaf_word flavor m
  have hknown := (h.isFor casings).knows _ (List.mem_map_of_mem (q.leaf_mem hs hleaf))
  rw [← htoken] at hf
  unfold Checker.keywordFindings at hf
  split at hf
  · exact absurd hf.symm (by simp)
  rename_i hbad
  obtain ⟨rfl, rfl, rfl⟩ := eq_of_append_singleton (show [] ++ [_] = _ from hf) (by simp)
  obtain ⟨k, hk⟩ : ∃ k, l.token.kind = .keyword k := by
    cases hkind : l.token.kind with
    | keyword k => exact ⟨k, rfl⟩
    | _ => exact absurd (by rw [hkind]; rfl) hbad
  have hword : l.token.kind.isWord = true := by rw [hk]; rfl
  have hlower := hknown.lowercase_text hk
  refine ⟨l, lowercase l.token.text, hleaf, ⟨hword, hknown.word hword, ?_, ?_, ?_⟩,
    ⟨_, rfl, rfl⟩, ?_, fun d hd => ?_⟩
  · rw [hlower]
    exact isWordText_spelling k
  · rw [hlower, hk]
    exact wordKind_spelling ((hknown.wordKind hword).trans hk)
  · rw [hlower]
    exact length_eq_of_sameWord (hknown.spelled k hk)
  · intro x _ hx
    have hname := x.name.2
    rw [hx, hk] at hname
    cases hname
  · have hnew : (m.map (Word.respelled l.token (lowercase l.token.text))).token =
        { l.token with text := lowercase l.token.text } := by
      show Token.respelled _ _ m.token = _
      rw [← htoken, Token.respelled_self]
    rw [Site.map, Site.findings, hnew, Checker.keywordFindings]
    simp only [hlower, k.lowercase_spelling, beq_self_eq_true, Bool.or_true, Bool.true_or, if_true]
    rfl

theorem recases_reference (h : Parse.Reads flavor source q) {kind : SymbolKind}
    {name : Word .identifier} {arguments : Option (ArgumentList Word)} {stop : Position}
    (hs : .reference kind name arguments stop ∈ q.sites)
    (hf : ((parse flavor source).checker casings).referenceFindings kind name.1 arguments stop =
      fs ++ f :: gs) (hcasing : f.problem.isCasing = true) :
    ∃ l declared, Recases ((parse flavor source).checker casings) q
      (.reference kind name arguments stop) f (fs ++ gs) l declared := by
  have hl : (.refers kind name : Leaf Word) ∈ q.leaves := q.leaf_mem hs rfl
  cases hlookup : ((parse flavor source).checker casings).catalog.lookup? kind name.1.text with
  | none =>
    rw [Checker.referenceFindings, hlookup] at hf
    obtain ⟨-, rfl, -⟩ := eq_of_append_singleton (show [] ++ [_] = _ from hf) (by simp)
    cases hcasing
  | some symbol =>
    have hcalls : f ∉ Checker.callFindings symbol.builtin? name.1 arguments := by
      intro hmem
      rw [not_isCasing_of_mem_callFindings hmem] at hcasing
      cases hcasing
    rw [Checker.referenceFindings_of_lookup hlookup, Checker.casingFindings] at hf
    split at hf
    · rw [List.append_nil] at hf
      exact absurd (by rw [hf]; simp) hcalls
    obtain ⟨rfl, rfl, rfl⟩ := eq_of_append_singleton hf hcalls
    have hknown := (h.isFor casings).knows _ (List.mem_map_of_mem hl)
    have hisWord : name.1.kind.isWord = true := by rw [name.2]; rfl
    have hdeclared := h.lookup_eq casings kind name.1.text
    rw [hlookup] at hdeclared
    obtain ⟨hword, hwordKind⟩ := h.isWord_name (List.mem_of_find?_eq_some hdeclared)
    have hfits : name.1.Fits flavor symbol.name :=
      ⟨hisWord, hknown.word hisWord, hword, hwordKind.trans name.2.symm,
        length_eq_of_sameName hword.isAscii (hknown.word hisWord).isAscii
          (Catalog.sameName_of_lookup hlookup)⟩
    refine ⟨.refers kind name, symbol.name, rfl, hfits, ⟨_, rfl, rfl⟩, fun x hx heq => ?_,
      fun d hd => ?_⟩
    · -- each token is one leaf of the quest, so it has one role
      have hsame :=
        List.inj_on_of_nodup_map (h.isFor casings).nodup (Quest.declares_mem_leaves hx) hl heq
      cases congrArg Leaf.role hsame
    · have hself : (Word.respelled name.1 symbol.name _ name).1 = { name.1 with text := symbol.name } :=
        Token.respelled_self name.1 symbol.name
      have hfound := hd.lookup kind symbol.name
      rw [Catalog.lookup?_name hlookup, Option.map_some] at hfound
      obtain ⟨symbol', hd', hsame⟩ := Option.map_eq_some_iff.mp hfound
      obtain ⟨hbuiltin, hname⟩ := Prod.mk.inj hsame
      rw [Site.map, Site.findings, Leaf.token_refers, hself,
        @Checker.referenceFindings_of_lookup _ kind { name.1 with text := symbol.name } symbol' _ _ hd',
        hbuiltin, hname, Checker.casingFindings, if_pos rfl, List.append_nil, List.append_nil]
      refine Checker.callFindings_map (keepsPlaces_respelled hfits) _ ?_ _
      rw [← hself]
      exact keepsPlaces_respelled hfits _ name

theorem exists_recases (h : Parse.Reads flavor source q) (hs : s ∈ q.sites)
    (hf : s.findings ((parse flavor source).checker casings) = fs ++ f :: gs)
    (hcasing : f.problem.isCasing = true) : ∃ l name,
      Recases ((parse flavor source).checker casings) q s f (fs ++ gs) l name := by
  have hmem : f ∈ s.findings ((parse flavor source).checker casings) := by
    rw [hf]
    simp
  cases s with
  | word m => exact recases_keyword h hs hf
  | reference kind name arguments stop => exact recases_reference h hs hf hcasing
  | gotoCondition x =>
    rw [List.mem_singleton.mp hmem] at hcasing
    cases hcasing
  | main seen x =>
    rcases List.mem_append.mp hmem with hmem | hmem
    · cases seen with
      | false => cases hmem
      | true =>
        rw [List.mem_singleton.mp hmem] at hcasing
        cases hcasing
    · obtain ⟨y, -, rfl⟩ := List.mem_map.mp hmem
      cases hcasing
  | state x =>
    rcases List.mem_append.mp hmem with hmem | hmem
    · unfold Checker.stateNameFindings at hmem
      split at hmem
      · split at hmem
        · cases hmem
        · rw [List.mem_singleton.mp hmem] at hcasing
          cases hcasing
      · cases hmem
    · obtain ⟨y, -, rfl⟩ := List.mem_map.mp hmem
      cases hcasing

/-- The word at a site is the subject of no other site. -/
theorem subject_ne {as bs : List (Site flavor)} {l : Leaf Word} (hnodup : q.tokens.Nodup)
    (hsites : q.sites = as ++ s :: bs) (hl : s.leaf? = some l)
    (hstates : ∀ x ∈ q.states, x.name.1 ≠ l.token) :
    ∀ u ∈ as ++ bs, ∀ t, u.subject? = some t → t ≠ l.token := by
  have htokens : q.tokens = (as.filterMap Site.leaf?).map Leaf.token ++
      l.token :: (bs.filterMap Site.leaf?).map Leaf.token := by
    rw [Quest.tokens, ← q.leaves_sites, hsites, List.filterMap_append, List.filterMap_cons_some hl,
      List.map_append, List.map_cons]
  rw [htokens, List.nodup_middle, List.nodup_cons, ← List.map_append, ← List.filterMap_append]
    at hnodup
  have hleaf : ∀ u ∈ as ++ bs, ∀ m, u.leaf? = some m → m.token ≠ l.token := by
    intro u hu m hm heq
    refine hnodup.1 (heq ▸ List.mem_map_of_mem ?_)
    exact List.mem_filterMap.mpr ⟨u, hu, hm⟩
  intro u hu t ht
  cases u with
  | word m =>
    obtain ⟨n, hn, -, htoken⟩ := Site.exists_leaf_word flavor m
    have hne := hleaf _ hu n hn
    rw [htoken] at hne
    obtain rfl := Option.some.inj ht
    exact hne
  | reference kind name arguments stop =>
    obtain rfl := Option.some.inj ht
    exact hleaf _ hu _ rfl
  | gotoCondition x => cases ht
  | main seen x => cases ht
  | state x =>
    obtain rfl := Option.some.inj ht
    refine hstates x ?_
    have hmem : .state x ∈ q.sites := by
      rw [hsites]
      rcases List.mem_append.mp hu with hu | hu <;> simp [hu]
    rw [← q.state_sites]
    exact List.mem_filterMap.mpr ⟨_, hmem, rfl⟩

theorem Recases.findings_eq {before after : List (Site flavor)} {rest : List Finding} {l : Leaf Word}
    {name : String} (hrecases : Recases ((parse flavor source).checker casings) q s f rest l name)
    (h : Parse.Reads flavor source q) (hcut : q.sites = before ++ s :: after) :
    (parse flavor (TextEdit.applyAll source [⟨l.token.span, name⟩])).findings casings =
      before.flatMap (Site.findings ((parse flavor source).checker casings)) ++ rest ++
        after.flatMap (Site.findings ((parse flavor source).checker casings)) ++
        if q.mains = [] then ((parse flavor source).checker casings).checkMainExists.findings else [] := by
  have hmem : s ∈ q.sites := by
    rw [hcut]
    simp
  have htarget : l.token ∈ q.tokens := List.mem_map_of_mem (q.leaf_mem hmem hrecases.leaf)
  have hsame : Checker.SameSymbols ((parse flavor source).checker casings)
      ((parse flavor (TextEdit.applyAll source [⟨l.token.span, name⟩])).checker casings) :=
    sameSymbols_respelled h htarget hrecases.fits hrecases.states
  have hsubject := subject_ne (h.isFor casings).nodup hcut hrecases.leaf hrecases.states
  have hstay : ∀ us : List (Site flavor), (∀ u ∈ us, u ∈ before ++ after) →
      (us.map (Site.map (Word.respelled l.token name))).flatMap (Site.findings
          ((parse flavor (TextEdit.applyAll source [⟨l.token.span, name⟩])).checker casings)) =
        us.flatMap (Site.findings ((parse flavor source).checker casings)) := by
    intro us hus
    rw [List.flatMap_map]
    refine List.flatMap_congr fun u hu => ?_
    refine hsame.findings_map (keepsPlaces_respelled hrecases.fits) u fun k w hw => ?_
    exact Token.respelled_of_ne (hsubject u (hus u hu) _ hw) name
  rw [(h.respelled htarget hrecases.fits).findings_eq, Quest.findings,
    q.sites_map (keepsPlaces_respelled hrecases.fits), hcut, List.map_append, List.map_cons,
    List.flatMap_append, List.flatMap_cons, hrecases.findings _ hsame,
    hstay before (by simp +contextual), hstay after (by simp +contextual), q.mains_map,
    ← List.append_assoc]
  by_cases hmains : q.mains = []
  · rw [if_pos (by rw [hmains]; rfl), if_pos hmains,
      checkMainExists_respelled h htarget hrecases.fits hmains]
  · rw [if_neg (by simpa using hmains), if_neg hmains]

end Sites

/-! ### The theorem -/

theorem exists_of_append_eq {β : Type} {xs ys before after : List β} {f : β}
    (h : xs ++ ys = before ++ f :: after) (hf : f ∉ ys) :
    ∃ rest, xs = before ++ f :: rest ∧ after = rest ++ ys := by
  rcases List.append_eq_append_iff.mp h with ⟨more, -, rfl⟩ | ⟨more, hxs, hrest⟩
  · simp at hf
  · cases more with
    | nil =>
      rw [List.nil_append] at hrest
      simp [← hrest] at hf
    | cons r more =>
      obtain ⟨rfl, rfl⟩ := List.cons.inj hrest
      exact ⟨more, hxs, rfl⟩

theorem not_isCasing_of_mem_checkMainExists {flavor : Flavor} {q : Quest Word flavor} {c : Checker}
    (h : c.IsFor q) {f : Finding}
    (hf : f ∈ if q.mains = [] then c.checkMainExists.findings else []) :
    f.problem.isCasing = false := by
  by_cases hmains : q.mains = []
  · rw [if_pos hmains] at hf
    rcases Checker.checkMainExists_eq h hmains with ⟨-, hfound⟩ | ⟨t, ts, -, -, hfound⟩
    · rw [hfound] at hf
      cases hf
    · rw [hfound, List.mem_singleton] at hf
      rw [hf]
      rfl
  · rw [if_neg hmains] at hf
    cases hf

/-- **Casing fixes change nothing else.** In a clean document, a warning about the letter case of a
keyword or of a name has one fix. With it the document is clean again, and it has the findings that it
had before, in the same order, but for that warning. -/
theorem findings_of_casing_fix (flavor : Flavor) (source : String) (casings : List String)
    (hclean : (parse flavor source).isClean = true) (before after : List Finding) (f : Finding)
    (hf : (parse flavor source).findings casings = before ++ f :: after)
    (hcasing : f.problem.isCasing = true) :
    ∃ fix, f.toDiagnostic.fixes = .single fix ∧
      (parse flavor (TextEdit.applyAll source fix.edits)).isClean = true ∧
      (parse flavor (TextEdit.applyAll source fix.edits)).findings casings = before ++ after ∧
      analyze flavor (TextEdit.applyAll source fix.edits) casings =
        (before ++ after).map Finding.toDiagnostic := by
  obtain ⟨q, h⟩ := Parse.exists_reads hclean
  rw [h.findings_eq, Quest.findings] at hf
  have hmissing : f ∉ if q.mains = [] then
      ((parse flavor source).checker casings).checkMainExists.findings else [] := by
    intro hmem
    rw [not_isCasing_of_mem_checkMainExists (h.isFor casings) hmem] at hcasing
    cases hcasing
  obtain ⟨rest, hsites, rfl⟩ := exists_of_append_eq hf hmissing
  obtain ⟨as, s, bs, fs, gs, hcut, hs, rfl, rfl⟩ := exists_of_flatMap_eq hsites
  have hmem : s ∈ q.sites := by
    rw [hcut]
    simp
  obtain ⟨l, name, hrecases⟩ := exists_recases h hmem hs hcasing
  obtain ⟨fix, hfix, hedits⟩ := hrecases.fixes
  have htarget : l.token ∈ q.tokens := List.mem_map_of_mem (q.leaf_mem hmem hrecases.leaf)
  have hfindings : (parse flavor (TextEdit.applyAll source fix.edits)).findings casings =
      (as.flatMap (Site.findings ((parse flavor source).checker casings)) ++ fs) ++
        ((gs ++ bs.flatMap (Site.findings ((parse flavor source).checker casings))) ++
          if q.mains = [] then
            ((parse flavor source).checker casings).checkMainExists.findings else []) := by
    rw [hedits, hrecases.findings_eq h hcut]
    simp only [List.append_assoc]
  refine ⟨fix, ?_, ?_, hfindings, ?_⟩
  · rw [Finding.toDiagnostic, hfix]
    rfl
  · rw [hedits]
    exact (h.respelled htarget hrecases.fits).isClean
  · rw [analyze, Parse.diagnostics, hfindings]

/-- A quest with an argument too many before a name in the wrong letter case, and a keyword in the
wrong letter case after it. -/
def shouted : String := "main\x7b\x7dstate a\x7brule Always(1)goto A\x7dSTATE b\x7b\x7d"

/-- The finding for the argument. -/
def shoutedArgument : Finding := .plain ⟨⟨0, 26⟩, ⟨0, 27⟩⟩ (.argumentCount 0 0 1)

/-- The finding for the name. -/
def shoutedName : Finding :=
  ⟨⟨⟨0, 33⟩, ⟨0, 34⟩⟩, .referenceCasing "a",
    [Checker.respell "Change casing to 'a'" "a" ⟨⟨0, 33⟩, ⟨0, 34⟩⟩]⟩

/-- The finding for the keyword. -/
def shoutedKeyword : Finding :=
  ⟨⟨⟨0, 35⟩, ⟨0, 40⟩⟩, .keywordCasing "STATE",
    [Checker.respell "Change casing to 'state'" "state" ⟨⟨0, 35⟩, ⟨0, 40⟩⟩]⟩

/-- The fix of a name between two other findings leaves these. -/
theorem findings_of_casing_fix_shouted :
    (parse .official shouted).isClean = true ∧
    (parse .official shouted).findings [] =
      [shoutedArgument] ++ shoutedName :: [shoutedKeyword] ∧
    shoutedName.problem.isCasing = true ∧
    ∃ fix, shoutedName.toDiagnostic.fixes = .single fix ∧
      (parse .official (TextEdit.applyAll shouted fix.edits)).isClean = true ∧
      (parse .official (TextEdit.applyAll shouted fix.edits)).findings [] =
        [shoutedArgument] ++ [shoutedKeyword] ∧
      analyze .official (TextEdit.applyAll shouted fix.edits) [] =
        ([shoutedArgument] ++ [shoutedKeyword]).map
          Finding.toDiagnostic := by
  have hclean : (parse .official shouted).isClean = true := by decide +kernel
  have hfindings : (parse .official shouted).findings [] =
      [shoutedArgument] ++ shoutedName :: [shoutedKeyword] := by
    decide +kernel
  exact ⟨hclean, hfindings, rfl,
    findings_of_casing_fix .official shouted [] hclean _ _ shoutedName hfindings rfl⟩

end QuestScript
