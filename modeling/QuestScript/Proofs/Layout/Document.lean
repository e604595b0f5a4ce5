import QuestScript.Proofs.Check.Catalog
import QuestScript.Proofs.Check.FullTree
import QuestScript.Proofs.Layout.Grammar

/-! # Layout does not matter

Two documents with the same significant tokens, in kind and text, are the same document laid out in
two ways: they may differ in blanks, comments and unknown text. Some move takes the tokens of the one
to those of the other (`Token.counterpart`), and parsing, the catalog and the checks all follow it
(`Parse.isImage_move`). So, places apart, the two have the same tree, syntax errors, states and semantic
findings (`layout_irrelevant`), and it does not matter whether states and findings are read off the trees
of significant tokens or off the full trees (`Catalog.ofParse_full`, `Parse.check_full`). -/

namespace QuestScript

/-! ### The tokens of another document -/

namespace Token

/-- The token of `us` that stands where `t` does in `ts`. -/
def counterpart (ts us : List Token) (t : Token) : Token := (us[ts.idxOf t]?).getD t

/-- The token without its place. -/
def unplaced (t : Token) : Token := ⟨t.kind, t.text, 0, 0, 0, 0⟩

variable {ts us : List Token}

/-- What is the same for the tokens at each index is the same for a token and the one that stands
where it does. -/
theorem apply_counterpart {β : Type} {g : Token → β} (h : ts.map g = us.map g) (t : Token) :
    g (counterpart ts us t) = g t := by
  rw [counterpart]
  cases hu : us[ts.idxOf t]? with
  | none => rfl
  | some u =>
    have hlt : ts.idxOf t < ts.length := by
      have hlength := congrArg List.length h
      rw [List.length_map, List.length_map] at hlength
      rw [hlength]
      exact (List.getElem?_eq_some_iff.mp hu).1
    have ht : ts[ts.idxOf t]? = some t := List.getElem?_idxOf (List.idxOf_lt_length_iff.mp hlt)
    have hget := congrArg (·[ts.idxOf t]?) h
    simp only [List.getElem?_map, ht, hu, Option.map_some, Option.some.injEq] at hget
    exact hget.symm

theorem keepsKind_counterpart (h : ts.map (·.kind) = us.map (·.kind)) :
    KeepsKind (counterpart ts us) :=
  ⟨apply_counterpart h⟩

theorem isMove_counterpart (h : ts.map (fun t => (t.kind, t.text)) = us.map fun t => (t.kind, t.text)) :
    IsMove (counterpart ts us) :=
  ⟨⟨fun t => congrArg Prod.fst (apply_counterpart h t)⟩,
    fun t => congrArg Prod.snd (apply_counterpart h t)⟩

theorem map_counterpart (hts : ts.Nodup) (h : ts.length = us.length) :
    ts.map (counterpart ts us) = us := by
  refine List.ext_getElem (by rw [List.length_map, h]) fun i hi hi' => ?_
  rw [List.length_map] at hi
  have hidx : ts.idxOf ts[i] = i := hts.idxOf_getElem i hi
  rw [List.getElem_map, counterpart, hidx, List.getElem?_eq_getElem hi', Option.getD_some]

theorem unplaced_comp {f : Token → Token} (hf : IsMove f) : unplaced ∘ f = unplaced := by
  funext t
  rw [Function.comp_apply, unplaced, hf.kind, hf.text]
  rfl

end Token

theorem exists_isMove {flavor : Flavor} {source other : String}
    (h : (parse flavor source).stream.significant.map (fun t => (t.kind, t.text)) =
      (parse flavor other).stream.significant.map fun t => (t.kind, t.text)) :
    ∃ f, Token.IsMove f ∧
      (parse flavor other).stream.significant = (parse flavor source).stream.significant.map f := by
  have hnodup : (parse flavor source).stream.significant.Nodup :=
    TokenStream.nodup_significant flavor source
  have hlength := congrArg List.length h
  rw [List.length_map, List.length_map] at hlength
  exact ⟨_, Token.isMove_counterpart h, (Token.map_counterpart hnodup hlength).symm⟩

mutual
theorem Tree.move_move {f g : Token → Token} : ∀ t : Tree, (t.move f).move g = t.move (g ∘ f)
  | .token t => rfl
  | .node k cs => by
    rw [move_node, move_node, move_node, Tree.moveAll_moveAll cs]
theorem Tree.moveAll_moveAll {f g : Token → Token} : ∀ ts : List Tree,
    (ts.map (move f)).map (move g) = ts.map (move (g ∘ f))
  | [] => rfl
  | t :: ts => by
    rw [List.map_cons, List.map_cons, List.map_cons, Tree.move_move t, Tree.moveAll_moveAll ts]
end

/-! ### Where errors stand -/

namespace Parse

/-- The number of significant tokens before the one at which an error was raised. -/
def ordinal (p : Parse) (e : SyntaxError) : Nat :=
  ((p.stream.tokens.take (p.offendingIndex e)).filter (·.isSignificant)).length

variable {flavor : Flavor} {source : String} {e : SyntaxError}

theorem ordinal_of_none (h : e.offending = none) :
    (parse flavor source).ordinal e = (parse flavor source).stream.significant.length := by
  have hindex : (parse flavor source).offendingIndex e =
      (TokenStream.ofSource flavor source).tokens.length - 1 := by
    rw [offendingIndex, h]
    rfl
  rw [ordinal, hindex]
  change (((TokenStream.ofSource flavor source).tokens.take _).filter _).length = _
  rw [← List.dropLast_eq_take, ← TokenStream.document_eq_dropLast]
  rfl

theorem ordinal_of_getElem? {t : Token} {i : Nat} (h : e.offending = some t)
    (ht : (parse flavor source).stream.significant[i]? = some t) :
    (parse flavor source).ordinal e = i := by
  obtain ⟨hi, hget⟩ := List.getElem?_eq_some_iff.mp ht
  have hcut : (TokenStream.ofSource flavor source).document.filter (·.isSignificant) =
      (parse flavor source).stream.significant.take i ++
        t :: (parse flavor source).stream.significant.drop (i + 1) := by
    rw [← hget, List.getElem_cons_drop, List.take_append_drop]
    rfl
  obtain ⟨before, rest, hdocument, hbefore, hrest⟩ := List.filter_eq_append_iff.mp hcut
  obtain ⟨hidden, after, rfl, hhidden, -, -⟩ := List.filter_eq_cons_iff.mp hrest
  have hplaced := hdocument
  rw [TokenStream.document_ofSource, ← List.append_assoc] at hplaced
  have hindex : (parse flavor source).offendingIndex e = (before ++ hidden).length := by
    rw [offendingIndex, h]
    exact TokenStream.index_eq hplaced
  rw [ordinal, hindex]
  change (((TokenStream.ofSource flavor source).tokens.take _).filter _).length = i
  rw [TokenStream.tokens_eq_document_append, hdocument, ← List.append_assoc before, List.append_assoc,
    List.take_left, List.filter_append, hbefore, List.filter_eq_nil_iff.mpr hhidden, List.append_nil,
    List.length_take_of_le hi.le]

theorem spanOf_of_leaves_eq_nil (p : Parse) {t : Tree} (h : t.leaves = []) :
    p.spanOf t = .error (.emptyNode t.kind) := by
  rw [spanOf, bounds, Tree.firstToken?, Tree.lastToken?, h]
  rfl

end Parse

/-! ### The same document in two layouts -/

section Layout
variable {flavor : Flavor} {source other : String} {f : Token → Token} (hf : Token.KeepsKind f)
  (htokens : (parse flavor other).stream.significant = (parse flavor source).stream.significant.map f)
include hf htokens

namespace Parse

theorem run_move : (Grammar.blocks flavor).run [.file] (parse flavor other).stream.significant =
    ((Grammar.blocks flavor).run [.file] (parse flavor source).stream.significant).move f := by
  rw [htokens]
  exact Grammar.isNatural_blocks f hf [.file] _

theorem tree_move : (parse flavor other).tree = (parse flavor source).tree.move f := by
  rw [parse, parse, Tree.move_node]
  exact congrArg (fun o : Outcome => Tree.node .file o.trees) (run_move hf htokens)

theorem errors_move :
    (parse flavor other).errors = (parse flavor source).errors.map (SyntaxError.move f) :=
  congrArg Outcome.errors (run_move hf htokens)

omit hf in
theorem ordinal_move {e : SyntaxError} (he : e ∈ (parse flavor source).errors) :
    (parse flavor other).ordinal (e.move f) = (parse flavor source).ordinal e := by
  cases hoffending : e.offending with
  | none =>
    have hmoved : (e.move f).offending = none := by rw [SyntaxError.move, hoffending]; rfl
    rw [ordinal_of_none hmoved, ordinal_of_none hoffending, htokens, List.length_map]
  | some t =>
    have hmoved : (e.move f).offending = some (f t) := by rw [SyntaxError.move, hoffending]; rfl
    have hmem : t ∈ (parse flavor source).stream.significant :=
      Grammar.isNatural_blocks.offending_mem he hoffending
    obtain ⟨i, hi⟩ := List.mem_iff_getElem?.mp hmem
    have hi' : (parse flavor other).stream.significant[i]? = some (f t) := by
      rw [htokens, List.getElem?_map, hi]
      rfl
    rw [ordinal_of_getElem? hmoved hi', ordinal_of_getElem? hoffending hi]

end Parse

omit hf in
theorem Catalog.ofParse_move (hf : Token.IsMove f) : Catalog.ofParse (parse flavor other) =
    (Catalog.ofParse (parse flavor source)).map f (Tree.move f) := by
  rw [ofParse, Parse.tree_move hf.toKeepsKind htokens, (Tree.isHom_move hf.toKeepsKind).states hf]
  rfl

end Layout

/-! ### Checkers of the two -/

namespace Parse
variable {flavor : Flavor} {source other : String}

section Checkers
variable {f : Token → Token} (hf : Token.IsMove f)
  (htokens : (parse flavor other).stream.significant = (parse flavor source).stream.significant.map f)
include hf htokens

theorem spansAlike_move {t : Tree} (ht : t ∈ (parse flavor source).tree.subtrees) :
    SpansAlike (fun _ _ => True) ((parse flavor source).spanOf t) ((parse flavor other).spanOf (t.move f)) := by
  have hknown := (leaves_sublist_significant flavor source ht).subset
  by_cases hleaves : t.leaves = []
  · have hmoved : (t.move f).leaves = [] := by rw [Tree.leaves_move, hleaves, List.map_nil]
    rw [spanOf_of_leaves_eq_nil _ hleaves, spanOf_of_leaves_eq_nil _ hmoved, Tree.kind_move hf.toKeepsKind]
    exact .missing _
  · have hmoved : (t.move f).leaves ≠ [] := by
      rw [Tree.leaves_move]
      simpa using hleaves
    have hspan := Checker.spanOf_eq (c := (parse flavor source).checker []) hleaves
      fun u hu => Checker.knows_of_mem rfl (hknown hu)
    have hspan' := Checker.spanOf_eq (c := (parse flavor other).checker []) hmoved fun u hu => by
      rw [Tree.leaves_move] at hu
      obtain ⟨v, hv, rfl⟩ := List.mem_map.mp hu
      exact Checker.knows_of_mem rfl (htokens ▸ List.mem_map_of_mem (hknown hv))
    exact hspan ▸ hspan' ▸ .found trivial

theorem alike_checkMainExists (casings : List String) :
    ((parse flavor source).checker casings).checkMainExists.Alike (fun _ _ => True)
      ((parse flavor other).checker casings).checkMainExists := by
  have hfirst : ((parse flavor other).checker casings).parse.stream.firstMeaningful? =
      ((parse flavor source).checker casings).parse.stream.firstMeaningful?.map f := by
    show (parse flavor other).stream.significant.head? = _
    rw [htokens, List.head?_map]
    rfl
  rw [Checker.checkMainExists, Checker.checkMainExists, hfirst]
  cases ((parse flavor source).checker casings).parse.stream.firstMeaningful? with
  | none => exact Report.alike_nothing
  | some t =>
    simp only [Option.map_some, hf.text]
    split
    · exact Report.alike_nothing
    · exact ⟨.cons (.made _ (fun r _ => r) (fun _ s => [⟨_, [⟨s, _⟩], _⟩]) trivial trivial) .nil, rfl⟩

/-- **The other layout is an image of the document**, wherever its spans are. -/
theorem isImage_move (casings : List String) :
    Checker.IsImage (fun _ _ => True) f (Tree.move f) (Place.move f)
      ((parse flavor source).checker casings) ((parse flavor other).checker casings) where
  isMove := hf
  isHom := Place.isHom_move hf.toKeepsKind
  flavor := rfl
  casings := rfl
  catalog := Catalog.ofParse_move htokens hf
  declaration s hs t ht := by
    have hnodup : (parse flavor other).stream.significant.Nodup :=
      TokenStream.nodup_significant flavor other
    rw [htokens] at hnodup
    obtain ⟨hblock, -, hname, -⟩ := Catalog.of_mem_states hs
    have hdeclared := leaves_sublist_significant flavor source (Tree.mem_subtrees_of_children hblock hname)
    have htoken := leaves_sublist_significant flavor source ht
    exact List.inj_on_of_nodup_map hnodup (hdeclared.subset (by simp)) (htoken.subset (by simp))
  spans t ht := spansAlike_move hf htokens ht
  mainExists := alike_checkMainExists hf htokens casings

theorem places_move (casings : List String) :
    ((parse flavor other).checker casings).places =
      ((parse flavor source).checker casings).places.map (Place.move f) := by
  have hdescendants : (Place.root (parse flavor other).tree).descendants =
      (Place.root (parse flavor source).tree).descendants.map (Place.move f) := by
    rw [tree_move hf.toKeepsKind htokens]
    exact Place.within_move [] _
  change (Place.root (parse flavor other).tree).descendants.filter _ =
    ((Place.root (parse flavor source).tree).descendants.filter _).map _
  rw [hdescendants, List.filter_map]
  congr 2
  funext p
  rw [Function.comp_apply, Place.isError_move]

theorem alike_check (casings : List String) :
    ((parse flavor source).check casings).Alike (fun _ _ => True) ((parse flavor other).check casings) := by
  rw [check, check, places_move hf htokens]
  refine (isImage_move hf htokens casings).checkPlaces false fun p hp => ?_
  exact Place.isIn_of_mem_descendants (List.mem_filter.mp hp).1

end Checkers

/-! ### The theorem -/

/-- **Layout does not matter.** Two documents with the same significant tokens, in kind and text, have
the same tree but for hidden tokens and for places, the same syntax errors at the same tokens, states
with the same names and descriptions, and semantic findings with the same severities and messages. States
and findings are those of the full trees as well (`Catalog.ofParse_full`, `check_full`). -/
theorem layout_irrelevant (flavor : Flavor) (source other : String) (casings : List String)
    (h : (parse flavor source).stream.significant.map (fun t => (t.kind, t.text)) =
      (parse flavor other).stream.significant.map fun t => (t.kind, t.text)) :
    (parse flavor source).fullTree.withoutHidden.move Token.unplaced =
      (parse flavor other).fullTree.withoutHidden.move Token.unplaced ∧
    (parse flavor source).errors.map
        (fun e => (e.recovery, e.expected, e.rules, (parse flavor source).ordinal e)) =
      (parse flavor other).errors.map
        (fun e => (e.recovery, e.expected, e.rules, (parse flavor other).ordinal e)) ∧
    (Catalog.ofParse (parse flavor source)).states.map (fun s => (s.name, s.description)) =
      (Catalog.ofParse (parse flavor other)).states.map (fun s => (s.name, s.description)) ∧
    ((parse flavor source).check casings).findings.map
        (fun x => (x.toDiagnostic.severity, x.toDiagnostic.message)) =
      ((parse flavor other).check casings).findings.map
        (fun x => (x.toDiagnostic.severity, x.toDiagnostic.message)) ∧
    ((parse flavor source).check casings).aborted = ((parse flavor other).check casings).aborted := by
  obtain ⟨f, hf, htokens⟩ := exists_isMove h
  refine ⟨?_, ?_, ?_, ?_⟩
  · rw [withoutHidden_fullTree, withoutHidden_fullTree, tree_move hf.toKeepsKind htokens,
      Tree.move_move,
      Token.unplaced_comp hf]
  · rw [errors_move hf.toKeepsKind htokens, List.map_map]
    refine List.map_congr_left fun e he => ?_
    rw [Function.comp_apply, ordinal_move htokens he]
    rfl
  · rw [Catalog.ofParse_move htokens hf, Catalog.map, List.map_map]
    refine List.map_congr_left fun s _ => ?_
    rw [Function.comp_apply, StateSymbol.name_map hf]
    rfl
  · have halike := alike_check hf htokens casings
    refine ⟨?_, halike.aborted⟩
    have hproblems := congrArg (List.map fun x : Problem => (x.severity, x.message)) halike.problems
    rw [List.map_map, List.map_map] at hproblems
    exact hproblems

/-- A document with an error and a keyword in uppercase. -/
def misspelled : String := "MAIN \x7b hidden hidden state a \x7b"

/-- The same document with a comment, line breaks and unknown text. -/
def misspelledAcrossLines : String := "MAIN\x7bhidden//\nhidden§state\ta\x7b\n"

/-- A comment, line breaks and unknown text change neither the syntax errors nor the findings. -/
theorem layout_irrelevant_comment :
    (parse .official misspelled).stream.significant.map (fun t => (t.kind, t.text)) =
      (parse .official misspelledAcrossLines).stream.significant.map (fun t => (t.kind, t.text)) ∧
    ((parse .official misspelled).check []).findings ≠ [] ∧
    ((parse .official misspelled).check []).findings.map
        (fun x => (x.toDiagnostic.severity, x.toDiagnostic.message)) =
      ((parse .official misspelledAcrossLines).check []).findings.map
        (fun x => (x.toDiagnostic.severity, x.toDiagnostic.message)) := by
  have h : (parse .official misspelled).stream.significant.map (fun t => (t.kind, t.text)) =
      (parse .official misspelledAcrossLines).stream.significant.map
        (fun t => (t.kind, t.text)) := by decide +kernel
  have hfound : ((parse .official misspelled).check []).findings ≠ [] := by decide +kernel
  exact ⟨h, hfound, (layout_irrelevant .official _ _ [] h).2.2.2.1⟩

end Parse

end QuestScript
