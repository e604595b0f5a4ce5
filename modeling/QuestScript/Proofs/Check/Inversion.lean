import Mathlib.Tactic.SplitIfs
import QuestScript.Diagnostic.Document

/-! # What a check finds

The checks are read backwards once and for all. What is found at a place has one of the forms of
`Checker.Finds`, which tells where in the tree the finding comes from (`finds_of_mem_checkPlace`); a walk
finds in addition at most that there is no main block (`of_mem_checkPlaces`). Before the walk the lexer
and the parser report unknown text and syntax errors (`of_mem_syntaxFindings`). -/

namespace QuestScript

/-! ### The findings of a report -/

namespace Report
variable {a b : Report} {f : Finding}

theorem mem_findings_andThen (h : f ∈ (a.andThen b).findings) : f ∈ a.findings ∨ f ∈ b.findings := by
  unfold andThen at h
  split at h
  · exact .inl h
  · exact List.mem_append.mp h

theorem mem_findings_all {rs : List Report} (h : f ∈ (all rs).findings) :
    ∃ r ∈ rs, f ∈ r.findings := by
  induction rs with
  | nil => cases h
  | cons r rs ih =>
    rcases mem_findings_andThen h with h | h
    · exact ⟨r, List.mem_cons_self, h⟩
    · obtain ⟨s, hs, h⟩ := ih h
      exact ⟨s, List.mem_cons_of_mem _ hs, h⟩

@[simp] theorem mem_findings_of_pure {fs : List Finding} : f ∈ (of (pure fs)).findings ↔ f ∈ fs :=
  Iff.rfl

/-- What is found after a step that may fail is found after its success. -/
@[simp] theorem mem_findings_of_bind {α : Type} {x : Except AnalysisError α}
    {g : α → Except AnalysisError (List Finding)} :
    f ∈ (of (x >>= g)).findings ↔ ∃ y, x = .ok y ∧ f ∈ (of (g y)).findings := by
  cases x with
  | error e =>
    constructor
    · intro h
      cases h
    · rintro ⟨_, hy, -⟩
      cases hy
  | ok y =>
    refine ⟨fun h => ⟨y, rfl, h⟩, ?_⟩
    rintro ⟨_, hy, h⟩
    cases hy
    exact h

end Report

namespace Checker

/-! ### The findings at a place -/

/-- The fix that writes a name as one that may have been meant, if there is one. -/
def respellings (c : Checker) (kind : SymbolKind) (name : String) (range : Span) : List QuickFix :=
  ((suggest name (c.catalog.names kind)).map fun other =>
    respell s!"Change spelling to '{other}'" other range).toList

/-- What may be found at a place. -/
inductive Finds (c : Checker) (p : Place) : Finding → Prop
  /-- A name that nothing is called. -/
  | unresolved {t kind range} (focus : p.focus = .token t)
      (reference : classify c.parse.flavor p = some kind)
      (range_eq : c.parse.spanOf p.focus = .ok range) :
      Finds c p ⟨range, .unresolved kind t.text (suggest t.text (c.catalog.names kind)),
        c.respellings kind t.text range⟩
  /-- A name within a state that no state has. -/
  | undeclared {t range block span} (focus : p.focus = .token t)
      (reference : classify c.parse.flavor p = some .state)
      (range_eq : c.parse.spanOf p.focus = .ok range)
      (block_eq : p.ancestor? .stateBlock = some block)
      (span_eq : c.parse.spanOf block.focus = .ok span) :
      Finds c p ⟨range, .unresolved .state t.text (suggest t.text (c.catalog.names .state)),
        c.respellings .state t.text range ++
          [declareState t.text span.stop (c.respellings .state t.text range).isEmpty]⟩
  /-- A name in another letter case than its declaration. -/
  | referenceCasing {declared range} (range_eq : c.parse.spanOf p.focus = .ok range) :
      Finds c p ⟨range, .referenceCasing declared,
        [respell s!"Change casing to '{declared}'" declared range]⟩
  /-- A keyword that is not in lowercase. -/
  | keywordCasing {t range} (focus : p.focus = .token t)
      (range_eq : c.parse.spanOf p.focus = .ok range) :
      Finds c p ⟨range, .keywordCasing t.text,
        [respell s!"Change casing to '{lowercase t.text}'" (lowercase t.text) range]⟩
  /-- An action that sets the state. -/
  | gotoPreferred {range} (range_eq : c.parse.spanOf p.focus = .ok range) :
      Finds c p (.plain range .gotoPreferred)
  /-- Too few arguments, from the name to the end of their list. -/
  | missingArgument {list name span required total count}
      (list_eq : Invocation.argumentList? p = some list)
      (name_eq : c.parse.spanOf p.focus = .ok name) (span_eq : c.parse.spanOf list = .ok span) :
      Finds c p (.plain ⟨name.start, span.stop⟩ (.argumentCount required total count))
  /-- Too many arguments, from the first one too many to the last. -/
  | excessArgument {list a more first last required total count}
      (list_eq : Invocation.argumentList? p = some list)
      (excess_eq : (Invocation.arguments c.parse.flavor list).drop total = a :: more)
      (first_eq : c.parse.spanOf a.1 = .ok first)
      (last_eq : c.parse.spanOf ((a :: more).getLast (by simp)).1 = .ok last) :
      Finds c p (.plain ⟨first.start, last.stop⟩ (.argumentCount required total count))
  /-- An argument of another type than its parameter. -/
  | argumentType {list argument type expected range}
      (list_eq : Invocation.argumentList? p = some list)
      (mem : (argument, type) ∈ Invocation.arguments c.parse.flavor list)
      (range_eq : c.parse.spanOf argument = .ok range) :
      Finds c p (.plain range (.argumentType type expected))
  /-- A main block after the first. -/
  | duplicateMain {keyword block range} (keyword_eq : p.focus.child? 0 = some keyword)
      (block_eq : c.parse.spanOf p.focus = .ok block)
      (range_eq : c.parse.spanOf keyword = .ok range) :
      Finds c p (.fixable range .duplicateMain "Remove duplicate 'main' block" (.delete block))
  /-- An attribute that the main block has before. -/
  | duplicateAttribute {name repeated range}
      (mem : (name, repeated) ∈
        repeatedAttributes [] (p.focus.children.filter (·.isNode .mainAttribute)))
      (range_eq : c.parse.spanOf repeated = .ok range) :
      Finds c p (.fixable range (.duplicateAttribute name) s!"Remove duplicate '{name}' attribute"
        (.delete range))
  /-- The name of a state that another state has before. -/
  | duplicateState {name range} (name_eq : (p.focus.child? 1).bind Tree.token? = some name)
      (range_eq : c.parse.spanOf (.token name) = .ok range) :
      Finds c p (.plain range (.duplicateState name.text))
  /-- A description of a state that has one before. -/
  | duplicateDescription {description range} (mem : description ∈ descriptions p.focus)
      (range_eq : c.parse.spanOf description = .ok range) :
      Finds c p (.fixable range .duplicateDescription "Remove duplicate 'desc'" (.delete range))
  /-- A `goto` in the place of a condition. -/
  | gotoNotAllowed {range} (range_eq : c.parse.spanOf p.focus = .ok range) :
      Finds c p (.plain range .gotoNotAllowed)

variable {c : Checker} {p : Place} {f : Finding}

theorem mem_findings_of_span {x : Except AnalysisError Span} {g : Span → Finding}
    (h : f ∈ (Report.of do return [g (← x)]).findings) : ∃ range, x = .ok range ∧ f = g range := by
  obtain ⟨range, hrange, h⟩ := Report.mem_findings_of_bind.mp h
  exact ⟨range, hrange, List.mem_singleton.mp h⟩

theorem finds_of_mem_checkArguments {b : Builtin} {list : Tree}
    (hlist : Invocation.argumentList? p = some list)
    (h : f ∈ (Invocation.checkArguments c.parse b p list).findings) : c.Finds p f := by
  unfold Invocation.checkArguments at h
  dsimp only at h
  split at h
  · simp only [Report.mem_findings_of_bind, Report.mem_findings_of_pure, List.mem_singleton] at h
    obtain ⟨name, hname, span, hspan, rfl⟩ := h
    exact .missingArgument hlist hname hspan
  · split at h
    · rename_i a more hexcess
      simp only [Report.mem_findings_of_bind, Report.mem_findings_of_pure, List.mem_singleton] at h
      obtain ⟨first, hfirst, last, hlast, rfl⟩ := h
      exact .excessArgument hlist hexcess hfirst hlast
    · obtain ⟨r, hr, h⟩ := Report.mem_findings_all h
      obtain ⟨⟨⟨argument, type⟩, parameter⟩, hmem, rfl⟩ := List.mem_map.mp hr
      dsimp only [Invocation.checkType] at h
      split at h
      · cases h
      · obtain ⟨range, hrange, rfl⟩ := mem_findings_of_span h
        exact .argumentType hlist (List.of_mem_zip hmem).1 hrange

theorem finds_of_mem_checkInvocation {b : Builtin}
    (h : f ∈ (Invocation.check c.parse b p).findings) : c.Finds p f := by
  rcases Report.mem_findings_andThen h with h | h
  · split at h
    · obtain ⟨range, hrange, rfl⟩ := mem_findings_of_span h
      exact .gotoPreferred hrange
    · cases h
  · split at h
    · rename_i list hlist
      exact finds_of_mem_checkArguments hlist h
    · cases h

theorem finds_of_mem_unresolved {t : Token} {kind : SymbolKind} (ht : p.focus = .token t)
    (hkind : classify c.parse.flavor p = some kind)
    (h : f ∈ (c.unresolved p kind t.text).findings) : c.Finds p f := by
  obtain ⟨range, hrange, h⟩ := Report.mem_findings_of_bind.mp h
  dsimp only at h
  split at h
  · rename_i block hblock
    simp only [Report.mem_findings_of_bind, Report.mem_findings_of_pure, List.mem_singleton] at h
    obtain ⟨span, hspan, _, hpure, rfl⟩ := h
    cases hpure
    split_ifs at hblock with hstate
    subst hstate
    exact .undeclared ht hkind hrange hblock hspan
  · simp only [Report.mem_findings_of_bind, Report.mem_findings_of_pure, List.mem_singleton] at h
    obtain ⟨_, hpure, rfl⟩ := h
    cases hpure
    rw [List.append_nil]
    exact .unresolved ht hkind hrange

theorem finds_of_mem_checkReference {t : Token} (ht : p.focus = .token t)
    (h : f ∈ (c.checkReference p t.text).findings) : c.Finds p f := by
  unfold checkReference at h
  split at h
  · cases h
  · rename_i kind hkind
    split at h
    · exact finds_of_mem_unresolved ht hkind h
    · rcases Report.mem_findings_andThen h with h | h
      · split at h
        · exact finds_of_mem_checkInvocation h
        · cases h
      · unfold checkCasing at h
        split at h
        · cases h
        · obtain ⟨range, hrange, rfl⟩ := mem_findings_of_span h
          exact .referenceCasing hrange

theorem finds_of_mem_checkKeyword {t : Token} (ht : p.focus = .token t)
    (h : f ∈ (c.checkKeyword p t).findings) : c.Finds p f := by
  unfold checkKeyword at h
  dsimp only at h
  split at h
  · cases h
  · obtain ⟨range, hrange, rfl⟩ := mem_findings_of_span h
    exact .keywordCasing ht hrange

theorem finds_of_mem_checkMainBlock {seen : Bool}
    (h : f ∈ (c.checkMainBlock seen p).findings) : c.Finds p f := by
  rcases Report.mem_findings_andThen h with h | h
  · split at h
    · unfold redeclaredMain at h
      split at h
      · rename_i keyword hkeyword
        simp only [Report.mem_findings_of_bind, Report.mem_findings_of_pure, List.mem_singleton] at h
        obtain ⟨block, hblock, range, hrange, rfl⟩ := h
        exact .duplicateMain hkeyword hblock hrange
      · cases h
    · cases h
  · obtain ⟨r, hr, h⟩ := Report.mem_findings_all h
    obtain ⟨⟨name, repeated⟩, hmem, rfl⟩ := List.mem_map.mp hr
    obtain ⟨range, hrange, rfl⟩ := mem_findings_of_span h
    exact .duplicateAttribute hmem hrange

theorem finds_of_mem_checkStateName {name : Token}
    (hname : (p.focus.child? 1).bind Tree.token? = some name)
    (h : f ∈ (c.checkStateName name).findings) : c.Finds p f := by
  unfold checkStateName at h
  split at h
  · split at h
    · cases h
    · obtain ⟨range, hrange, rfl⟩ := mem_findings_of_span h
      exact .duplicateState hname hrange
  · cases h

theorem finds_of_mem_checkStateBlock (h : f ∈ (c.checkStateBlock p).findings) : c.Finds p f := by
  unfold checkStateBlock at h
  split at h
  · rename_i name hname
    split at h
    · rcases Report.mem_findings_andThen h with h | h
      · exact finds_of_mem_checkStateName hname h
      · obtain ⟨r, hr, h⟩ := Report.mem_findings_all h
        obtain ⟨description, hmem, rfl⟩ := List.mem_map.mp hr
        obtain ⟨range, hrange, rfl⟩ := mem_findings_of_span h
        exact .duplicateDescription (List.mem_of_mem_drop hmem) hrange
    · cases h
  · cases h

theorem finds_of_mem_checkGoto (h : f ∈ (c.checkGoto p).findings) : c.Finds p f := by
  unfold checkGoto at h
  dsimp only at h
  split at h
  · obtain ⟨range, hrange, rfl⟩ := mem_findings_of_span h
    exact .gotoNotAllowed hrange
  · cases h

/-- **What is found at a place has one of the forms of findings.** -/
theorem finds_of_mem_checkPlace {seen : Bool} (h : f ∈ (c.checkPlace seen p).findings) :
    c.Finds p f := by
  unfold checkPlace at h
  split at h
  · rename_i t ht
    rcases Report.mem_findings_andThen h with h | h
    · exact finds_of_mem_checkReference ht h
    · exact finds_of_mem_checkKeyword ht h
  · exact finds_of_mem_checkMainBlock h
  · exact finds_of_mem_checkStateBlock h
  · exact finds_of_mem_checkGoto h
  · cases h

/-! ### The walk -/

/-- The fix that puts a main block before a token. -/
def addMain (c : Checker) (t : Token) : QuickFix :=
  ⟨"Add a 'main' block",
    [.insert ⟨t.span.start.line, t.span.start.column - c.indentBefore t⟩ "main\n\x7b\n\n\x7d\n\n"], false⟩

theorem of_mem_checkMainExists (h : f ∈ c.checkMainExists.findings) :
    ∃ t, c.parse.stream.firstMeaningful? = some t ∧ f = ⟨t.span, .missingMain, [c.addMain t]⟩ := by
  unfold checkMainExists at h
  split at h
  · cases h
  · rename_i t ht
    split at h
    · cases h
    · exact ⟨t, ht, List.mem_singleton.mp h⟩

/-- **A walk finds something at its places**, or at last that there is no main block. -/
theorem of_mem_checkPlaces {ps : List Place} {seen : Bool}
    (h : f ∈ (c.checkPlaces seen ps).findings) :
    (∃ p ∈ ps, c.Finds p f) ∨
      ∃ t, c.parse.stream.firstMeaningful? = some t ∧ f = ⟨t.span, .missingMain, [c.addMain t]⟩ := by
  induction ps generalizing seen with
  | nil =>
    cases seen
    · exact .inr (of_mem_checkMainExists h)
    · cases h
  | cons p ps ih =>
    rcases Report.mem_findings_andThen h with h | h
    · exact .inl ⟨p, List.mem_cons_self, finds_of_mem_checkPlace h⟩
    · exact (ih h).imp_left fun ⟨q, hq, hfound⟩ => ⟨q, List.mem_cons_of_mem _ hq, hfound⟩

end Checker

/-! ### The lexer and the parser -/

/-- **Before the walk unknown text and syntax errors are reported.** -/
theorem Parse.of_mem_syntaxFindings {p : Parse} {f : Finding} (h : f ∈ p.syntaxFindings) :
    (∃ t ∈ p.stream.unknown, f = lexicalFinding t) ∨
      ∃ e ∈ p.errors, ∃ t, p.shownToken? e = some t ∧ f = .plain t.span (e.problem t.text) := by
  obtain ⟨⟨offset, f⟩, hmem, rfl⟩ := List.mem_map.mp h
  rcases List.mem_append.mp (List.mem_mergeSort.mp hmem) with hmem | hmem
  · obtain ⟨t, ht, heq⟩ := List.mem_map.mp hmem
    cases heq
    exact .inl ⟨t, ht, rfl⟩
  · obtain ⟨e, he, heq⟩ := List.mem_filterMap.mp hmem
    simp only [syntaxFinding?, Option.map_map, Option.map_eq_some_iff, Function.comp_apply,
      Prod.mk.injEq] at heq
    obtain ⟨t, ht, -, rfl⟩ := heq
    exact .inr ⟨e, he, t, ht, rfl⟩

/-- The problem is one of the lexer or the parser. -/
def Problem.isSyntactic : Problem → Bool
  | unterminatedString | invalidInput | expected _ | extraneous _ _ => true
  | _ => false

theorem Parse.isSyntactic_of_mem_syntaxFindings {p : Parse} {f : Finding} (h : f ∈ p.syntaxFindings) :
    f.problem.isSyntactic = true := by
  rcases of_mem_syntaxFindings h with ⟨t, -, rfl⟩ | ⟨e, -, t, -, rfl⟩
  · dsimp only [lexicalFinding, Finding.plain]
    split_ifs <;> rfl
  · dsimp only [SyntaxError.problem, Finding.plain]
    split_ifs <;> rfl

end QuestScript
