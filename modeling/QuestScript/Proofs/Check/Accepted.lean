import QuestScript.Proofs.Check.Complete
import QuestScript.Proofs.Check.Inversion
import QuestScript.Proofs.Token.Span

/-! # Accepted spellings of keywords

The spellings that the user accepts are looked at in one check, that of keywords. All other checks are the
same with them and without, and none ends the walk, so they only take findings away: at each place what is
found is what would be found without them but for the keywords accepted (`Parse.findings_checkPlace`).
A warning about a keyword tells which one by its range, whose text is the keyword
(`Parse.exists_keyword`); so the diagnostics of a document are those found with no spelling accepted, less
the warnings whose text is accepted (`Parse.analyze_accepted`). -/

namespace QuestScript

/-- The text of a span. -/
def Span.textIn (s : Span) (text : List Char) : List Char :=
  (text.take (s.stop.offsetIn text)).drop (s.start.offsetIn text)

/-! ### What is told about keywords -/

/-- The keyword that is not in lowercase, if this is the problem. -/
def Problem.keyword? : Problem → Option String
  | keywordCasing word => some word
  | _ => none

/-- The finding is about a keyword in an accepted spelling. -/
def Finding.isAccepted (casings : List String) (f : Finding) : Bool :=
  f.problem.keyword?.any casings.contains

namespace Diagnostic

/-- The diagnostic warns of a keyword that is not in lowercase. -/
def isKeywordWarning (d : Diagnostic) : Bool :=
  d.severity == .warning && d.message == "Keywords should be lowercase."

/-- The diagnostic warns of a keyword whose text is one of the accepted spellings. -/
def isAccepted (source : String) (casings : List String) (d : Diagnostic) : Bool :=
  d.isKeywordWarning && casings.contains (String.ofList (d.range.textIn source.toList))

end Diagnostic

theorem Problem.message_referenceCasing_ne (declared : String) :
    (referenceCasing declared).message ≠ "Keywords should be lowercase." := by
  intro h
  have hmessage : (referenceCasing declared).message =
      "Name reference casing should match declaration ('" ++ declared ++ "')." := rfl
  have hname : "Name reference casing should match declaration ('".toList.head? = some 'N' := by
    decide +kernel
  have hkeywords : "Keywords should be lowercase.".toList.head? = some 'K' := by decide +kernel
  have hhead := congrArg (fun s : String => s.toList.head?) h
  rw [hmessage, String.toList_append, String.toList_append, List.head?_append, List.head?_append,
    hname, hkeywords] at hhead
  cases hhead

/-- **A keyword is told by the message**: no other warning has it. -/
theorem Finding.isKeywordWarning_toDiagnostic (f : Finding) :
    f.toDiagnostic.isKeywordWarning = f.problem.keyword?.isSome := by
  obtain ⟨range, problem, fixes⟩ := f
  show (problem.severity == .warning && problem.message == "Keywords should be lowercase.") =
    problem.keyword?.isSome
  cases problem with
  | keywordCasing word => exact beq_self_eq_true _
  | gotoPreferred => exact beq_false_of_ne (by decide +kernel)
  | referenceCasing declared => exact beq_false_of_ne (Problem.message_referenceCasing_ne declared)
  | _ => rfl

/-! ### Checks of other things -/

namespace Checker
variable {p : Parse} {place : Place} {f : Finding}

theorem keyword?_of_mem_checkArguments {b : Builtin} {list : Tree}
    (h : f ∈ (Invocation.checkArguments p b place list).findings) : f.problem.keyword? = none := by
  unfold Invocation.checkArguments at h
  dsimp only at h
  split at h
  · simp only [Report.mem_findings_of_bind, Report.mem_findings_of_pure, List.mem_singleton] at h
    obtain ⟨name, -, span, -, rfl⟩ := h
    rfl
  · split at h
    · simp only [Report.mem_findings_of_bind, Report.mem_findings_of_pure, List.mem_singleton] at h
      obtain ⟨first, -, last, -, rfl⟩ := h
      rfl
    · obtain ⟨r, hr, h⟩ := Report.mem_findings_all h
      obtain ⟨⟨⟨argument, type⟩, parameter⟩, -, rfl⟩ := List.mem_map.mp hr
      dsimp only [Invocation.checkType] at h
      split at h
      · cases h
      · obtain ⟨range, -, rfl⟩ := mem_findings_of_span h
        rfl

theorem keyword?_of_mem_checkInvocation {b : Builtin}
    (h : f ∈ (Invocation.check p b place).findings) : f.problem.keyword? = none := by
  rcases Report.mem_findings_andThen h with h | h
  · split at h
    · obtain ⟨range, -, rfl⟩ := mem_findings_of_span h
      rfl
    · cases h
  · split at h
    · exact keyword?_of_mem_checkArguments h
    · cases h

variable {c : Checker}

theorem keyword?_of_mem_unresolved {kind : SymbolKind} {name : String}
    (h : f ∈ (c.unresolved place kind name).findings) : f.problem.keyword? = none := by
  obtain ⟨range, -, h⟩ := Report.mem_findings_of_bind.mp h
  dsimp only at h
  split at h
  all_goals
    simp only [Report.mem_findings_of_bind, Report.mem_findings_of_pure, List.mem_singleton] at h
  · obtain ⟨_, -, _, -, rfl⟩ := h
    rfl
  · obtain ⟨_, -, rfl⟩ := h
    rfl

theorem keyword?_of_mem_checkReference {name : String}
    (h : f ∈ (c.checkReference place name).findings) : f.problem.keyword? = none := by
  unfold checkReference at h
  split at h
  · cases h
  · split at h
    · exact keyword?_of_mem_unresolved h
    · rcases Report.mem_findings_andThen h with h | h
      · split at h
        · exact keyword?_of_mem_checkInvocation h
        · cases h
      · unfold checkCasing at h
        split at h
        · cases h
        · obtain ⟨range, -, rfl⟩ := mem_findings_of_span h
          rfl

theorem keyword?_of_mem_checkPlace {seen : Bool} {k : NodeKind} {cs : List Tree}
    (hfocus : place.focus = .node k cs) (h : f ∈ (c.checkPlace seen place).findings) :
    f.problem.keyword? = none := by
  cases finds_of_mem_checkPlace h with
  | keywordCasing focus =>
    rw [hfocus] at focus
    cases focus
  | _ => rfl

theorem of_mem_keywordFindings {t : Token} (h : f ∈ c.keywordFindings t) :
    t.kind.isKeyword = true ∧ f.problem.keyword? = some t.text ∧ f.range = t.span := by
  unfold keywordFindings at h
  split at h
  · cases h
  · rename_i hskipped
    obtain rfl := List.mem_singleton.mp h
    refine ⟨?_, rfl, rfl⟩
    by_contra hkind
    rw [Bool.not_eq_true] at hkind
    exact hskipped (by rw [hkind]; rfl)

/-! ### The walk -/

theorem filter_isAccepted_eq_self {casings : List String} {fs : List Finding}
    (h : ∀ f ∈ fs, f.problem.keyword? = none) : fs.filter (!·.isAccepted casings) = fs :=
  List.filter_eq_self.mpr fun f hf => by rw [Finding.isAccepted, h f hf]; rfl

theorem keywordFindings_checker (p : Parse) (casings : List String) (t : Token) :
    (p.checker casings).keywordFindings t =
      ((p.checker []).keywordFindings t).filter (!·.isAccepted casings) := by
  have hcasings : (p.checker casings).casings = casings := rfl
  have hnone : (p.checker []).casings.contains t.text = false := rfl
  unfold keywordFindings
  rw [hcasings, hnone, Bool.or_false]
  by_cases hskipped : (!t.kind.isKeyword || t.text == lowercase t.text) = true
  · rw [hskipped]
    rfl
  · rw [Bool.not_eq_true] at hskipped
    have haccepted : ∀ fixes, Finding.isAccepted casings ⟨t.span, .keywordCasing t.text, fixes⟩ =
        casings.contains t.text := fun _ => rfl
    rw [hskipped, Bool.false_or, if_neg Bool.false_ne_true, List.filter_cons, haccepted]
    cases casings.contains t.text <;> rfl

end Checker

/-! ### Documents -/

namespace Parse
variable {flavor : Flavor} {source : String} {place : Place} {f : Finding} {t : Token}

/-- **At a token its reference is checked, then its spelling as a keyword.** -/
theorem findings_checkPlace_token (hplace : place.IsIn (parse flavor source).tree)
    (ht : place.focus = .token t) (casings : List String) (seen : Bool) :
    (((parse flavor source).checker casings).checkPlace seen place).findings =
      (((parse flavor source).checker casings).checkReference place t.text).findings ++
        ((parse flavor source).checker casings).keywordFindings t := by
  have hleaf := (leaves_sublist_significant flavor source hplace.focus).subset
    (show t ∈ place.focus.leaves by simp [ht])
  have hreference := Checker.aborted_checkReference (surveys flavor source casings) hplace ht t.text
  obtain ⟨focus, path⟩ := place
  obtain rfl : focus = .token t := ht
  have hkeyword := Checker.checkKeyword_eq
    (Checker.knows_of_mem (c := (parse flavor source).checker casings) rfl hleaf) path
  rw [Checker.checkPlace]
  dsimp only
  rw [hkeyword, Report.andThen, hreference]

/-- **What is found at a place** is what would be found there with no spelling accepted, less the keywords
in accepted spellings. -/
theorem findings_checkPlace (hplace : place.IsIn (parse flavor source).tree) (casings : List String)
    (seen : Bool) :
    (((parse flavor source).checker casings).checkPlace seen place).findings =
      (((parse flavor source).checker []).checkPlace seen place).findings.filter
        (!·.isAccepted casings) := by
  cases hfocus : place.focus with
  | token t =>
    have hreference : ((parse flavor source).checker casings).checkReference place t.text =
        ((parse flavor source).checker []).checkReference place t.text := rfl
    rw [findings_checkPlace_token hplace hfocus, findings_checkPlace_token hplace hfocus,
      List.filter_append,
      Checker.filter_isAccepted_eq_self fun f hf => Checker.keyword?_of_mem_checkReference hf,
      Checker.keywordFindings_checker, hreference]
  | node k cs =>
    rw [Checker.filter_isAccepted_eq_self fun f hf => Checker.keyword?_of_mem_checkPlace hfocus hf]
    unfold Checker.checkPlace
    rw [hfocus]
    cases k <;> rfl

theorem findings_check (flavor : Flavor) (source : String) (casings : List String) :
    let c := (parse flavor source).checker casings
    ((parse flavor source).check casings).findings =
      (Checker.visits false c.places).flatMap (fun v => (c.checkPlace v.1 v.2).findings) ++
        c.closing false c.places :=
  congrArg Report.findings (Checker.checkPlaces_eq (surveys flavor source casings)
    (fun _ hq => Place.isIn_of_mem_descendants (List.mem_filter.mp hq).1) false)

theorem isIn_of_mem_visits {casings : List String} {v : Bool × Place}
    (hv : v ∈ Checker.visits false ((parse flavor source).checker casings).places) :
    v.2.IsIn (parse flavor source).tree := by
  have hmem := List.mem_map_of_mem (f := (·.2)) hv
  rw [Checker.map_visits] at hmem
  exact Place.isIn_of_mem_descendants (List.mem_filter.mp hmem).1

theorem keyword?_of_mem_closing {casings : List String} {ps : List Place}
    (h : f ∈ ((parse flavor source).checker casings).closing false ps) : f.problem.keyword? = none := by
  unfold Checker.closing at h
  split at h
  · cases h
  · obtain ⟨t, -, rfl⟩ := Checker.of_mem_checkMainExists h
    rfl

theorem keyword?_of_mem_syntaxFindings {p : Parse} (h : f ∈ p.syntaxFindings) :
    f.problem.keyword? = none := by
  have hsyntactic := isSyntactic_of_mem_syntaxFindings h
  revert hsyntactic
  cases f.problem <;> first | exact fun _ => rfl | rintro ⟨⟩

/-- **Accepted spellings only take findings away.** -/
theorem findings_accepted (flavor : Flavor) (source : String) (casings : List String) :
    (parse flavor source).findings casings =
      ((parse flavor source).findings []).filter (!·.isAccepted casings) := by
  rw [findings, findings, List.filter_append,
    Checker.filter_isAccepted_eq_self fun f hf => keyword?_of_mem_syntaxFindings hf, findings_check,
    findings_check, List.filter_append,
    Checker.filter_isAccepted_eq_self fun f hf => keyword?_of_mem_closing hf, List.filter_flatMap]
  refine congrArg (_ ++ ·) (congrArg₂ (· ++ ·) ?_ rfl)
  exact List.flatMap_congr fun v hv => findings_checkPlace (isIn_of_mem_visits hv) casings v.1

/-- **A finding about a keyword is made at the keyword.** -/
theorem exists_keyword {casings : List String} (hf : f ∈ (parse flavor source).findings casings)
    {word : String} (hword : f.problem.keyword? = some word) :
    ∃ t ∈ (parse flavor source).stream.significant, t.kind.isKeyword = true ∧ word = t.text ∧
      f.range = t.span := by
  have hne : f.problem.keyword? ≠ none := by
    rw [hword]
    exact Option.some_ne_none word
  rcases List.mem_append.mp hf with hf | hf
  · exact absurd (keyword?_of_mem_syntaxFindings hf) hne
  rw [findings_check] at hf
  rcases List.mem_append.mp hf with hf | hf
  · obtain ⟨v, hv, hf⟩ := List.mem_flatMap.mp hf
    have hplace := isIn_of_mem_visits hv
    cases hfocus : v.2.focus with
    | node k cs => exact absurd (Checker.keyword?_of_mem_checkPlace hfocus hf) hne
    | token t =>
      rw [findings_checkPlace_token hplace hfocus] at hf
      rcases List.mem_append.mp hf with hf | hf
      · exact absurd (Checker.keyword?_of_mem_checkReference hf) hne
      · obtain ⟨hkind, htext, hrange⟩ := Checker.of_mem_keywordFindings hf
        have hleaf := Tree.leaves_subset _ hplace.focus (show t ∈ v.2.focus.leaves by simp [hfocus])
        rw [leaves_tree] at hleaf
        exact ⟨t, hleaf, hkind, Option.some.inj (hword.symm.trans htext), hrange⟩
  · exact absurd (keyword?_of_mem_closing hf) hne

theorem textIn_span (ht : t ∈ (parse flavor source).stream.significant) :
    t.span.textIn source.toList = t.text.toList := by
  obtain ⟨before, rest, hcut, -, hspan⟩ := TokenStream.exists_span ht
  have hstop : source.toList = (before ++ t.text.toList) ++ rest := by
    rw [hcut, List.append_assoc]
  have hstart_offset : (Position.after before).offsetIn source.toList = before.length := by
    rw [hcut]
    exact Position.offsetIn_after _ _
  have hstop_offset : (Position.after (before ++ t.text.toList)).offsetIn source.toList =
      (before ++ t.text.toList).length := by
    rw [hstop]
    exact Position.offsetIn_after _ _
  rw [Span.textIn, hspan, hstart_offset, hstop_offset, hstop, List.take_left, List.drop_left]

/-- **Accepted spellings only silence their own warnings.** Whatever spellings of keywords are accepted, the
diagnostics of a document are those with none accepted, in order, less the warnings whose text is an
accepted spelling; and each warning stands at a keyword and has its text. -/
theorem analyze_accepted (flavor : Flavor) (source : String) (casings : List String) :
    analyze flavor source casings =
        (analyze flavor source []).filter (!·.isAccepted source casings) ∧
      ∀ d ∈ analyze flavor source [], d.isKeywordWarning = true →
        ∃ t ∈ (parse flavor source).stream.significant, t.kind.isKeyword = true ∧
          d.range = t.span ∧ d.range.textIn source.toList = t.text.toList := by
  have hkeyword : ∀ f ∈ (parse flavor source).findings [], ∀ word, f.problem.keyword? = some word →
      ∃ t ∈ (parse flavor source).stream.significant, t.kind.isKeyword = true ∧ word = t.text ∧
        f.range = t.span ∧ f.range.textIn source.toList = t.text.toList := by
    intro f hf word hword
    obtain ⟨t, ht, hkind, htext, hrange⟩ := exists_keyword hf hword
    refine ⟨t, ht, hkind, htext, hrange, ?_⟩
    rw [hrange, textIn_span ht]
  constructor
  · rw [analyze, analyze, diagnostics, diagnostics, findings_accepted, List.filter_map]
    refine congrArg _ (List.filter_congr fun f hf => congrArg not ?_)
    show f.isAccepted casings = f.toDiagnostic.isAccepted source casings
    rw [Diagnostic.isAccepted, Finding.isKeywordWarning_toDiagnostic, Finding.isAccepted]
    cases hword : f.problem.keyword? with
    | none => rfl
    | some word =>
      obtain ⟨t, -, -, rfl, -, htext⟩ := hkeyword f hf word hword
      show casings.contains t.text = casings.contains (String.ofList (f.range.textIn source.toList))
      rw [htext, String.ofList_toList]
  · intro d hd hwarning
    obtain ⟨f, hf, rfl⟩ := List.mem_map.mp hd
    rw [Finding.isKeywordWarning_toDiagnostic] at hwarning
    obtain ⟨word, hword⟩ := Option.isSome_iff_exists.mp hwarning
    obtain ⟨t, ht, hkind, -, hrange, htext⟩ := hkeyword f hf word hword
    exact ⟨t, ht, hkind, hrange, htext⟩

/-- One spelling in capitals is accepted, so only the warning about the other remains, and it is told at the
keyword. -/
theorem analyze_accepted_main :
    ∃ d, analyze .eoserv "MAIN \x7b \x7d\nState A \x7b \x7d" ["MAIN"] = [d] ∧
      d.isKeywordWarning = true ∧
      ∃ t ∈ (parse .eoserv "MAIN \x7b \x7d\nState A \x7b \x7d").stream.significant,
        t.kind.isKeyword = true ∧ d.range = t.span := by
  obtain ⟨hfilter, hkeyword⟩ := analyze_accepted .eoserv "MAIN \x7b \x7d\nState A \x7b \x7d" ["MAIN"]
  have hwarnings : (analyze .eoserv "MAIN \x7b \x7d\nState A \x7b \x7d" []).map (fun d =>
      (d.isKeywordWarning, !d.isAccepted "MAIN \x7b \x7d\nState A \x7b \x7d" ["MAIN"])) =
        [(true, false), (true, true)] := by
    decide +kernel
  -- With nothing accepted there are two warnings, and the filter takes the first.
  obtain ⟨first, _, hlist, hfirst, hmore⟩ := List.map_eq_cons_iff.mp hwarnings
  obtain ⟨d, _, rfl, hd, hnil⟩ := List.map_eq_cons_iff.mp hmore
  obtain rfl := List.map_eq_nil_iff.mp hnil
  obtain ⟨-, hfirst⟩ := Prod.mk.inj hfirst
  obtain ⟨hwarning, hd⟩ := Prod.mk.inj hd
  rw [hlist, List.filter_cons, hfirst, if_neg Bool.false_ne_true, List.filter_singleton, hd] at hfilter
  obtain ⟨t, ht, hkind, hrange, -⟩ := hkeyword d (hlist ▸ by simp) hwarning
  exact ⟨d, hfilter, hwarning, t, ht, hkind, hrange⟩

end Parse

end QuestScript
