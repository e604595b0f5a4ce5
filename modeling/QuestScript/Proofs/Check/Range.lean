import QuestScript.Proofs.Check.Complete
import QuestScript.Proofs.Check.Inversion
import QuestScript.Proofs.Layout.Grammar
import QuestScript.Proofs.Span

/-! # Diagnostics point into the document

Whatever is found is shown at tokens of the document, from the start of one to the end of the same or
a later one, and so are the edits of its fixes (`Finding.IsWithin`). The one exception is unknown text
that goes over several lines: it is a comment that is not closed, and its span, which is taken to end
on its first line, ends outside the text (`ranges_in_source`). -/

namespace QuestScript

/-! ### Findings within a text -/

/-- The finding and the edits of its fixes point into the text, and at most one of the fixes may be
applied without asking. -/
structure Finding.IsWithin (f : Finding) (text : List Char) : Prop where
  range : f.range.LiesIn text
  edits : ∀ fix ∈ f.fixes, ∀ edit ∈ fix.edits, edit.range.LiesIn text
  preferred : (f.fixes.filter (·.isPreferred)).length ≤ 1

namespace Finding
variable {text : List Char} {range : Span} {problem : Problem}

theorem isWithin_plain (h : range.LiesIn text) : (plain range problem).IsWithin text := by
  refine ⟨h, fun fix hfix => ?_, ?_⟩
  · cases hfix
  · exact Nat.zero_le 1

theorem isWithin_fix (h : range.LiesIn text) {title : String} {edit : TextEdit}
    {isPreferred : Bool} (hedit : edit.range.LiesIn text) :
    IsWithin ⟨range, problem, [⟨title, [edit], isPreferred⟩]⟩ text := by
  refine ⟨h, fun fix hfix e he => ?_, List.length_filter_le ..⟩
  rw [List.mem_singleton.mp hfix, List.mem_singleton] at he
  rwa [he]

end Finding

theorem Position.liesIn_self {p : Position} {text : List Char} (h : p.IsIn text) :
    Span.LiesIn ⟨p, p⟩ text :=
  ⟨(Position.le_total p p).elim id id, h, h⟩

theorem Position.IsIn.of_column_le {p : Position} {text : List Char} (h : p.IsIn text) {column : Nat}
    (hle : column ≤ p.column) : IsIn ⟨p.line, column⟩ text := by
  obtain ⟨line, hline, hcolumn⟩ := h
  exact ⟨line, hline, hle.trans hcolumn⟩

/-! ### Semantic findings -/

namespace Checker
variable {c : Checker} {p : Place} {f : Finding}

theorem respellings_eq (c : Checker) (kind : SymbolKind) (name : String) (range : Span) :
    c.respellings kind name range = [] ∨
      ∃ title other, c.respellings kind name range = [respell title other range] := by
  unfold respellings
  cases suggest name (c.catalog.names kind) with
  | none => exact .inl rfl
  | some other => exact .inr ⟨_, other, rfl⟩

theorem isWithin_unresolved {text : List Char} {range : Span} (h : range.LiesIn text)
    (problem : Problem) (kind : SymbolKind) (name : String) :
    Finding.IsWithin ⟨range, problem, c.respellings kind name range⟩ text := by
  rcases c.respellings_eq kind name range with hnil | ⟨title, other, hone⟩
  · rw [hnil]
    exact Finding.isWithin_plain h
  · rw [hone]
    exact Finding.isWithin_fix h h

/-- Declaring a state is the preferred fix only if there is no other. -/
theorem isWithin_undeclared {text : List Char} {range : Span} (h : range.LiesIn text)
    (problem : Problem) (kind : SymbolKind) (name : String) {stop : Position} (hstop : stop.IsIn text) :
    Finding.IsWithin ⟨range, problem, c.respellings kind name range ++
      [declareState name stop (c.respellings kind name range).isEmpty]⟩ text := by
  have hdeclare : ∀ edit ∈ (declareState name stop
      (c.respellings kind name range).isEmpty).edits, edit.range.LiesIn text := by
    intro edit hedit
    rw [List.mem_singleton.mp hedit]
    exact Position.liesIn_self hstop
  refine ⟨h, fun fix hfix => ?_, ?_⟩
  · rcases List.mem_append.mp hfix with hfix | hfix
    · exact (isWithin_unresolved h problem kind name).edits fix hfix
    · rw [List.mem_singleton.mp hfix]
      exact hdeclare
  · rcases c.respellings_eq kind name range with hnil | ⟨title, other, hone⟩
    · rw [hnil]
      exact le_rfl
    · rw [hone]
      exact le_rfl

theorem leavesOf_arguments_sublist (flavor : Flavor) (list : Tree) :
    (Tree.leavesOf ((Invocation.arguments flavor list).map Prod.fst)).Sublist list.leaves := by
  unfold Invocation.arguments
  split
  · rename_i t ht
    have ht : t ∈ list.subtrees := Tree.mem_subtrees_of_child? list.self_mem_subtrees ht
    split
    · have hargument : ∀ c d : Tree, (Invocation.argument? flavor c).map Prod.fst = some d →
          d.leaves.Sublist c.leaves := by
        intro c d hd
        obtain ⟨x, hx, rfl⟩ := Option.map_eq_some_iff.mp hd
        rw [(eq_of_argument? hx).1]
      rw [List.map_filterMap]
      exact ((Tree.leavesOf_filterMap_sublist hargument t.children).trans
        t.leavesOf_children_sublist).trans (Tree.leaves_sublist list ht)
    · exact List.nil_sublist _
  · exact List.nil_sublist _

section Source
variable {flavor : Flavor} {source : String} (hc : c.parse = QuestScript.parse flavor source)
include hc

theorem span_liesIn {u : Tree} {range : Span} (hu : u ∈ c.parse.tree.subtrees)
    (h : c.parse.spanOf u = .ok range) : range.LiesIn source.toList := by
  rw [hc] at hu h
  have hleaves : (Tree.leavesOf [u]).Sublist (QuestScript.parse flavor source).tree.leaves := by
    rw [Tree.leavesOf_cons, Tree.leavesOf_nil, List.append_nil]
    exact Tree.leaves_sublist _ hu
  exact Parse.liesIn_between hleaves rfl rfl h h

/-- **What is found at a place of the tree points into the source.** -/
theorem Finds.isWithin (hp : p.IsIn c.parse.tree) (h : c.Finds p f) :
    f.IsWithin source.toList := by
  have hfocus : ∀ {range}, c.parse.spanOf p.focus = .ok range → range.LiesIn source.toList :=
    fun h => span_liesIn hc hp.focus h
  have hlist : ∀ {list}, Invocation.argumentList? p = some list → p.next? = some list :=
    fun h => (Option.filter_eq_some_iff.mp h).1
  cases h with
  | unresolved _ _ range_eq => exact isWithin_unresolved (hfocus range_eq) _ _ _
  | undeclared _ _ range_eq block_eq span_eq =>
    have hblock := span_liesIn hc (hp.ancestor? block_eq) span_eq
    exact isWithin_undeclared (hfocus range_eq) _ _ _ hblock.stop_isIn
  | referenceCasing range_eq => exact Finding.isWithin_fix (hfocus range_eq) (hfocus range_eq)
  | keywordCasing _ range_eq => exact Finding.isWithin_fix (hfocus range_eq) (hfocus range_eq)
  | gotoPreferred range_eq => exact Finding.isWithin_plain (hfocus range_eq)
  | missingArgument list_eq name_eq span_eq =>
    have hleaves := hp.leavesOf_next?_sublist (hlist list_eq)
    rw [hc] at hleaves name_eq span_eq
    exact Finding.isWithin_plain (Parse.liesIn_between hleaves rfl rfl name_eq span_eq)
  | @excessArgument list a more _ _ _ total _ list_eq excess_eq first_eq last_eq =>
    have hexcess : (Tree.leavesOf ((a :: more).map Prod.fst)).Sublist c.parse.tree.leaves := by
      rw [← excess_eq]
      refine (Tree.leavesOf_mono ((List.drop_sublist total _).map Prod.fst)).trans ?_
      exact (leavesOf_arguments_sublist _ list).trans
        (Tree.leaves_sublist _ (hp.next? (hlist list_eq)))
    have hlast : ((a :: more).map Prod.fst).getLast? = some ((a :: more).getLast (by simp)).1 := by
      rw [List.getLast?_map, List.getLast?_eq_some_getLast (List.cons_ne_nil a more)]
      rfl
    rw [hc] at hexcess first_eq last_eq
    exact Finding.isWithin_plain (Parse.liesIn_between hexcess rfl hlast first_eq last_eq)
  | argumentType list_eq mem range_eq =>
    have hmem := Tree.subtrees_trans _ (hp.next? (hlist list_eq)) (mem_of_mem_arguments mem).1
    exact Finding.isWithin_plain (span_liesIn hc hmem range_eq)
  | duplicateMain keyword_eq block_eq range_eq =>
    have hkeyword := Tree.mem_subtrees_of_child? hp.focus keyword_eq
    exact Finding.isWithin_fix (span_liesIn hc hkeyword range_eq) (hfocus block_eq)
  | duplicateAttribute mem range_eq =>
    have hchild := (List.mem_filter.mp (mem_of_mem_repeatedAttributes mem)).1
    have hrange := span_liesIn hc (Tree.mem_subtrees_of_children hp.focus hchild) range_eq
    exact Finding.isWithin_fix hrange hrange
  | duplicateState name_eq range_eq =>
    have hname := mem_subtrees_of_childToken hp.focus name_eq
    exact Finding.isWithin_plain (span_liesIn hc hname range_eq)
  | duplicateDescription mem range_eq =>
    have hrange := span_liesIn hc (mem_subtrees_of_descriptions hp.focus mem).1 range_eq
    exact Finding.isWithin_fix hrange hrange
  | gotoNotAllowed range_eq => exact Finding.isWithin_plain (hfocus range_eq)

end Source

end Checker

/-! ### The whole document -/

namespace Parse
variable {flavor : Flavor} {source : String} {casings : List String} {f : Finding} {t : Token}

theorem span_liesIn_of_mem_significant (h : t ∈ (parse flavor source).stream.significant) :
    t.span.LiesIn source.toList := by
  obtain ⟨before, rest, hcut, -, hspan⟩ := TokenStream.exists_span h
  exact Span.liesIn_iff.mpr ⟨before, t.text.toList, rest, hcut, hspan⟩

theorem isWithin_of_mem_check (h : f ∈ ((parse flavor source).check casings).findings) :
    f.IsWithin source.toList := by
  have hc : ((parse flavor source).checker casings).parse = parse flavor source := rfl
  rcases Checker.of_mem_checkPlaces h with ⟨p, hp, hfound⟩ | ⟨t, ht, rfl⟩
  · exact hfound.isWithin hc (Place.isIn_of_mem_descendants (List.mem_filter.mp hp).1)
  · have hspan : t.span.LiesIn source.toList :=
      span_liesIn_of_mem_significant (List.mem_of_mem_head? ht)
    refine Finding.isWithin_fix hspan (Position.liesIn_self ?_)
    exact hspan.start_isIn.of_column_le (Nat.sub_le _ _)

theorem previousSignificant?_endIndex (flavor : Flavor) (source : String) :
    (parse flavor source).stream.previousSignificant? (parse flavor source).endIndex =
      (parse flavor source).stream.significant.getLast? := by
  have hdocument : (parse flavor source).stream.tokens.take (parse flavor source).endIndex =
      (parse flavor source).stream.document := by
    rw [endIndex, TokenStream.length, ← List.dropLast_eq_take]
    exact (TokenStream.document_eq_dropLast flavor source).symm
  rw [TokenStream.previousSignificant?, hdocument, TokenStream.significant, ← List.head?_reverse,
    ← List.filter_reverse, List.head?_filter]

/-- Where there is nothing to parse, nothing is missing. -/
theorem errors_eq_nil_of_significant (h : (parse flavor source).stream.significant = []) :
    (parse flavor source).errors = [] := by
  show ((Grammar.blocks flavor).run [.file] (parse flavor source).stream.significant).errors = _
  rw [h]
  simp [Grammar.blocks, Grammar.listOf, Grammar.Items.run]

/-- **A syntax error is shown at a token that the grammar sees.** -/
theorem shownToken?_mem {e : SyntaxError} (he : e ∈ (parse flavor source).errors)
    (ht : (parse flavor source).shownToken? e = some t) :
    t ∈ (parse flavor source).stream.significant := by
  unfold shownToken? at ht
  split at ht
  · rename_i u hu
    obtain rfl := Option.some.inj ht
    exact Grammar.isNatural_blocks.offending_mem he hu
  · rw [previousSignificant?_endIndex] at ht
    cases hlast : (parse flavor source).stream.significant.getLast? with
    | some u =>
      rw [hlast, Option.some_or] at ht
      obtain rfl := Option.some.inj ht
      exact List.mem_of_getLast? hlast
    | none =>
      rw [errors_eq_nil_of_significant (List.getLast?_eq_none_iff.mp hlast)] at he
      cases he

/-- **What the lexer and the parser find points into the source**, apart from comments that go over
several lines. -/
theorem isWithin_of_mem_syntaxFindings (h : f ∈ (parse flavor source).syntaxFindings) :
    f.IsWithin source.toList ∨
      ∃ t ∈ (parse flavor source).stream.unknown, '\n' ∈ t.text.toList ∧ f = lexicalFinding t := by
  rcases of_mem_syntaxFindings h with ⟨t, ht, rfl⟩ | ⟨e, he, t, ht, rfl⟩
  · by_cases hline : '\n' ∈ t.text.toList
    · exact .inr ⟨t, ht, hline, rfl⟩
    · obtain ⟨before, rest, hcut, hbehind⟩ :=
        TokenStream.exists_behind (TokenStream.mem_document_of_mem_unknown ht)
      refine .inl (Finding.isWithin_plain (Span.liesIn_iff.mpr ⟨before, _, rest, hcut, ?_⟩))
      rw [← hbehind.start, ← hbehind.stop hline]
  · exact .inl (Finding.isWithin_plain (span_liesIn_of_mem_significant (shownToken?_mem he ht)))

end Parse

/-- **Diagnostics point into the source.** The range of a diagnostic starts at a position of the source
and does not end before it starts; the ranges of the edits of its fixes are stretches of the source, and
at most one of the fixes is preferred. The range also ends at a position of the source, unless the
diagnostic reports a comment that is not closed and goes over several lines, when it never does. -/
theorem ranges_in_source (flavor : Flavor) (source : String) (casings : List String) :
    ∀ d ∈ analyze flavor source casings,
      d.range.start ≤ d.range.stop ∧ d.range.start.IsIn source.toList ∧
      (d.range.stop.IsIn source.toList ∨
        ∃ t ∈ (parse flavor source).stream.unknown, ['/', '*'] <+: t.text.toList ∧
          '\n' ∈ t.text.toList ∧ d = (Parse.lexicalFinding t).toDiagnostic ∧
          ¬ d.range.stop.IsIn source.toList) ∧
      (∀ fix ∈ d.fixes.toList, ∀ edit ∈ fix.edits, edit.range.LiesIn source.toList) ∧
      (d.fixes.toList.filter (·.isPreferred)).length ≤ 1 := by
  intro d hd
  obtain ⟨f, hf, rfl⟩ := List.mem_map.mp hd
  have hfixes : f.toDiagnostic.fixes.toList = f.fixes := QuickFixes.toList_ofList f.fixes
  have hfound : f.IsWithin source.toList ∨
      ∃ t ∈ (parse flavor source).stream.unknown, '\n' ∈ t.text.toList ∧
        f = Parse.lexicalFinding t := by
    rcases List.mem_append.mp hf with hf | hf
    · exact Parse.isWithin_of_mem_syntaxFindings hf
    · exact .inl (Parse.isWithin_of_mem_check hf)
  rw [hfixes]
  rcases hfound with ⟨hrange, hedits, hpreferred⟩ | ⟨t, ht, hline, rfl⟩
  · exact ⟨hrange.ordered, hrange.start_isIn, .inl hrange.stop_isIn, hedits, hpreferred⟩
  · have hmem := TokenStream.mem_document_of_mem_unknown ht
    obtain ⟨before, rest, hcut, hbehind⟩ := TokenStream.exists_behind hmem
    have hstart : t.span.start.IsIn source.toList := by
      rw [hbehind.start, hcut]
      exact Position.isIn_after before _
    refine ⟨t.start_le_stop, hstart, .inr ⟨t, ht, ?_, hline, rfl, ?_⟩, ?_, Nat.zero_le 1⟩
    · exact TokenStream.opensComment_of_mem_unknown ht hline
    · exact TokenStream.not_isIn_stop hmem hline
    · intro fix hfix
      cases hfix

/-- In a document without a main block, the edit that adds one lies in the source. -/
theorem ranges_in_source_noMain :
    ∃ d ∈ analyze .official "state s { }" [],
      (∃ fix ∈ d.fixes.toList, fix.edits ≠ [] ∧
        ∀ edit ∈ fix.edits, edit.range.LiesIn "state s { }".toList) ∧
      d.range.start ≤ d.range.stop ∧ d.range.start.IsIn "state s { }".toList ∧
      (d.fixes.toList.filter (·.isPreferred)).length ≤ 1 := by
  obtain ⟨d, hd, fix, hfix, hne⟩ : ∃ d ∈ analyze .official "state s { }" [],
      ∃ fix ∈ d.fixes.toList, fix.edits ≠ [] := by decide +kernel
  obtain ⟨hordered, hstart, -, hedits, hpreferred⟩ := ranges_in_source _ _ _ d hd
  exact ⟨d, hd, ⟨fix, hfix, hne, hedits fix hfix⟩, hordered, hstart, hpreferred⟩

/-- The comment `/*` that is not closed before the end of its line is shown up to a third character of a
line of two. -/
theorem exists_range_outside :
    ∃ d ∈ analyze .official "/*\n" [], d.range = ⟨⟨0, 0⟩, ⟨0, 3⟩⟩ ∧
      ¬ d.range.stop.IsIn "/*\n".toList := by
  decide +kernel

end QuestScript
