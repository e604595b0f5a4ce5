import QuestScript.Proofs.Ast.Keywords
import QuestScript.Proofs.Fix.AddMain
import QuestScript.Proofs.Grammar.Nesting
import QuestScript.Proofs.Span

/-! # Accounting for main blocks

Whatever errors a document has, each of its main blocks but the first is reported once and may be
deleted (`Parse.redeclared_mains`), that there is none is reported once and not again after the fix
(`Parse.filter_findings_missingMain`, `Parse.settled_of_addMain`), and each attribute that a main block
has more than once is reported as often as it is repeated (`Parse.repeated_attributes`). -/

namespace QuestScript

/-- The keyword with which a tree starts. -/
def Tree.keyword? (t : Tree) : Option Keyword := t.firstToken?.bind (·.kind.keyword?)

/-- The keyword of an attribute occurs before in its block. -/
def Problem.isDuplicateAttribute : Problem → Bool
  | duplicateAttribute _ => true
  | _ => false

/-- The fix of a finding deletes the text from the first to the last token of a tree, and nothing
else. -/
def Finding.Deletes (f : Finding) (source : String) (t : Tree) : Prop :=
  ∃ first last fix pre mid post, t.significantTokens.head? = some first ∧
    t.significantTokens.getLast? = some last ∧ f.fixes = [fix] ∧ source.toList = pre ++ (mid ++ post) ∧
    byteLength pre = first.offset ∧ byteLength (pre ++ mid) = last.endOffset ∧
    (TextEdit.applyAll source fix.edits).toList = pre ++ post

/-! ### Lists of findings -/

theorem forall₂_flatMap {α β : Type} {R : α → β → Prop} {g : α → List β} {xs : List α}
    (h : ∀ x ∈ xs, ∃ y, g x = [y] ∧ R x y) : List.Forall₂ R xs (xs.flatMap g) := by
  induction xs with
  | nil => exact .nil
  | cons x xs ih =>
    obtain ⟨y, hy, hR⟩ := h x List.mem_cons_self
    rw [List.flatMap_cons, hy]
    exact .cons hR (ih fun z hz => h z (List.mem_cons_of_mem x hz))

namespace Checker
variable {c : Checker} {seen : Bool} {block : Tree}

theorem filter_mainBlockFindings_main :
    (mainBlockFindings seen block).filter (fun f => f.problem == .duplicateMain) =
      if seen then (block.child? 0).toList.map (redeclaration block) else [] := by
  have hredeclared : (if seen then (block.child? 0).toList.map (redeclaration block) else []).filter
      (fun f => f.problem == .duplicateMain) =
        if seen then (block.child? 0).toList.map (redeclaration block) else [] := by
    refine List.filter_eq_self.mpr fun f hf => ?_
    cases seen with
    | false => cases hf
    | true =>
      obtain ⟨keyword, -, rfl⟩ := List.mem_map.mp hf
      rfl
  have hrepeated : ((repeatedAttributes [] (attributes block)).map repetition).filter
      (fun f => f.problem == .duplicateMain) = [] := by
    refine List.filter_eq_nil_iff.mpr fun f hf => ?_
    obtain ⟨x, -, rfl⟩ := List.mem_map.mp hf
    simp [repetition, Finding.fixable]
  rw [mainBlockFindings, List.filter_append, hredeclared, hrepeated, List.append_nil]

theorem filter_mainBlockFindings_attribute :
    (mainBlockFindings seen block).filter (fun f => f.problem.isDuplicateAttribute) =
      (repeatedAttributes [] (attributes block)).map repetition := by
  have hredeclared : (if seen then (block.child? 0).toList.map (redeclaration block) else []).filter
      (fun f => f.problem.isDuplicateAttribute) = [] := by
    refine List.filter_eq_nil_iff.mpr fun f hf => ?_
    cases seen with
    | false => cases hf
    | true =>
      obtain ⟨keyword, -, rfl⟩ := List.mem_map.mp hf
      simp [redeclaration, Finding.fixable, Problem.isDuplicateAttribute]
  have hrepeated : ((repeatedAttributes [] (attributes block)).map repetition).filter
      (fun f => f.problem.isDuplicateAttribute) =
        (repeatedAttributes [] (attributes block)).map repetition := by
    refine List.filter_eq_self.mpr fun f hf => ?_
    obtain ⟨x, -, rfl⟩ := List.mem_map.mp hf
    rfl
  rw [mainBlockFindings, List.filter_append, hredeclared, hrepeated, List.nil_append]

/-! ### Repeated attributes -/

/-- **The attributes found to be repeated** and the keywords that are new make up all attributes. -/
theorem length_repeatedAttributes {ts : List Tree}
    (h : ∀ t ∈ ts, ∃ s j, t.firstToken? = some s ∧ s.kind = .keyword j ∧ lowercase s.text = j.spelling)
    (seen : List Keyword) :
    (repeatedAttributes (seen.map Keyword.spelling) ts).length +
      ((ts.filterMap Tree.keyword?).toFinset \ seen.toFinset).card = ts.length := by
  induction ts generalizing seen with
  | nil => simp [repeatedAttributes]
  | cons t ts ih =>
    obtain ⟨⟨s, j, hfirst, hkind, hlower⟩, hmore⟩ := List.forall_mem_cons.mp h
    have hkeyword : t.keyword? = some j := by
      simp [Tree.keyword?, hfirst, hkind, TokenKind.keyword?]
    rw [repeatedAttributes, hfirst]
    dsimp only
    rw [hlower, List.filterMap_cons_some hkeyword, List.toFinset_cons, List.length_cons]
    by_cases hmem : j ∈ seen
    · rw [if_pos (by simpa using ⟨j, hmem, rfl⟩), List.length_cons,
        Finset.insert_sdiff_of_mem _ (List.mem_toFinset.mpr hmem), ← ih hmore seen]
      omega
    · have hnew : j.spelling ∉ seen.map Keyword.spelling := fun h => by
        obtain ⟨k, hk, hspelling⟩ := List.mem_map.mp h
        exact hmem (Keyword.spelling_inj hspelling ▸ hk)
      have hinsert : insert j (ts.filterMap Tree.keyword?).toFinset \ seen.toFinset =
          insert j ((ts.filterMap Tree.keyword?).toFinset \ (j :: seen).toFinset) := by
        ext k
        by_cases hk : k = j
        · simp [hk, hmem]
        · simp [hk]
      rw [if_neg (by simpa using hnew), hinsert, Finset.card_insert_of_notMem (by simp),
        ← ih hmore (j :: seen), List.map_cons]
      omega

theorem repeatedAttributes_sublist (seen : List String) (ts : List Tree) :
    ((repeatedAttributes seen ts).map (·.2)).Sublist ts := by
  fun_induction repeatedAttributes seen ts with
  | case1 => exact .slnil
  | case2 seen t ts _ ih => exact ih.cons t
  | case3 seen t ts keyword _ name _ ih => exact ih.cons_cons t
  | case4 seen t ts keyword _ name _ ih => exact ih.cons t

/-! ### Missing main blocks -/

theorem findings_checkMainExists (c : Checker) :
    c.checkMainExists.findings =
      ((c.parse.stream.firstMeaningful?.filter
        fun t => !(lowercase t.text).toList.isPrefixOf "main".toList).map
          fun t => ⟨t.span, .missingMain, [c.addMain t]⟩).toList := by
  unfold checkMainExists
  cases c.parse.stream.firstMeaningful? with
  | none => rfl
  | some t =>
    dsimp only
    by_cases hbegins : (lowercase t.text).toList.isPrefixOf "main".toList = true
    · rw [if_pos hbegins, Option.filter_some, if_neg (by rw [hbegins]; simp)]
      rfl
    · rw [if_neg hbegins, Option.filter_some, if_pos (by rw [Bool.not_eq_true _ |>.mp hbegins]; rfl)]
      rfl

end Checker

/-! ### Documents -/

namespace Parse
variable (flavor : Flavor) (source : String) (casings : List String)
open Checker

theorem mainBlock_of_mem {block : Tree} (h : block ∈ (parse flavor source).tree.nodes .mainBlock) :
    block ∈ (parse flavor source).tree.subtrees ∧ block.IsTolerated flavor ∧
      block.isNode .mainBlock = true := by
  obtain ⟨hmem, hnode⟩ := List.mem_filter.mp h
  exact ⟨hmem, (isTolerated_tree flavor source).subtrees block hmem, hnode⟩

/-- The finding for a main block after another has a fix that deletes the block. -/
theorem deletes_redeclaration {block : Tree}
    (h : block ∈ (parse flavor source).tree.nodes .mainBlock) (keyword : Tree) :
    (redeclaration block keyword).Deletes source block := by
  obtain ⟨hmem, -, hnode⟩ := mainBlock_of_mem flavor source h
  have hextent := spanOf_subtree (c := (parse flavor source).checker []) (isTolerated_tree flavor source)
    (fun t ht => knows_of_mem_leaves flavor source [] ht) hmem
    (Tree.isNode_file_of_isNode hnode (by simp))
  obtain ⟨first, last, hfirst, hlast⟩ := exists_of_spanOf hextent
  have hsub := significantTokens_sublist (.inl rfl) hmem
  obtain ⟨pre, mid, post, hcut, hpre, hmid, hstart, hstop⟩ := exists_cut_of_sublist hsub hfirst hlast
  have hspan := spanOf_eq_of_sublist hsub hfirst hlast
  rw [hstart, hstop] at hspan
  refine ⟨first, last, _, pre, mid, post, hfirst, hlast, rfl, hcut, hpre, hmid, ?_⟩
  exact TextEdit.toList_applyAll hcut (Except.ok.inj (hextent.symm.trans hspan))

/-- **Every main block but the first is reported once**, at its keyword, with a fix that deletes it. -/
theorem redeclared_mains :
    let p := parse flavor source
    List.Forall₂ (fun block f => ∃ keyword, block.child? 0 = some (.token keyword) ∧
        keyword.kind = .keyword .main ∧ f.range = keyword.span ∧ f.Deletes source block)
      ((p.tree.nodes .mainBlock).drop 1)
      ((p.findings casings).filter fun f => f.problem == .duplicateMain) := by
  intro p
  rw [filter_findings_mainBlock flavor source casings (· == .duplicateMain)
    (by intro x hx; rw [eq_of_beq hx]; rfl)]
  simp only [filter_mainBlockFindings_main]
  cases hmains : p.tree.nodes .mainBlock with
  | nil => exact .nil
  | cons m ms =>
    rw [marking, List.flatMap_cons, List.flatMap_map]
    refine forall₂_flatMap fun block hmem => ?_
    have hblock : block ∈ p.tree.nodes .mainBlock := hmains ▸ List.mem_cons_of_mem m hmem
    obtain ⟨-, htree, hnode⟩ := mainBlock_of_mem flavor source hblock
    obtain ⟨s, hchild, hs⟩ := exists_mainKeyword htree.hasShape hnode
    refine ⟨redeclaration block (.token s), by simp [hchild], s, hchild, hs, ?_, ?_⟩
    · exact Tree.extent_token s
    · exact deletes_redeclaration flavor source hblock _

/-- **A missing main block is reported** once, at the first token, if this starts with no part of its
keyword. -/
theorem filter_findings_missingMain :
    let p := parse flavor source
    (p.findings casings).filter (fun f => f.problem == .missingMain) =
      if p.tree.nodes .mainBlock = [] then
        ((p.stream.firstMeaningful?.filter
          fun t => !(lowercase t.text).toList.isPrefixOf "main".toList).map
            fun t => ⟨t.span, .missingMain, [(p.checker casings).addMain t]⟩).toList
      else [] := by
  intro p
  have hsyntax : p.syntaxFindings.filter (fun f => f.problem == .missingMain) = [] := by
    refine List.filter_eq_nil_iff.mpr fun f hf hmissing => ?_
    have hsyntactic := isSyntactic_of_mem_syntaxFindings hf
    rw [eq_of_beq hmissing] at hsyntactic
    cases hsyntactic
  have hplaces : ((visits false (p.checker casings).places).flatMap
      fun v => ((p.checker casings).checkPlace v.1 v.2).findings).filter
        (fun f => f.problem == .missingMain) = [] := by
    refine List.filter_eq_nil_iff.mpr fun f hf hmissing => ?_
    obtain ⟨v, -, hf⟩ := List.mem_flatMap.mp hf
    have hproblem := eq_of_beq hmissing
    cases finds_of_mem_checkPlace hf <;> cases hproblem
  rw [findings_eq, List.filter_append, List.filter_append, hsyntax, hplaces, List.nil_append,
    List.nil_append]
  by_cases hmains : p.tree.nodes .mainBlock = []
  · rw [if_pos hmains, if_pos hmains, List.filter_eq_self.mpr ?_, findings_checkMainExists]
    · rfl
    · intro f hf
      obtain ⟨t, -, rfl⟩ := of_mem_checkMainExists hf
      rfl
  · rw [if_neg hmains, if_neg hmains, List.filter_nil]

/-- **After the fix a main block is missing no more.** -/
theorem settled_of_addMain {f : Finding} (hf : f ∈ (parse flavor source).findings casings)
    (hmissing : f.problem = .missingMain) :
    ∃ fix, f.fixes = [fix] ∧
      ∀ g ∈ (parse flavor (TextEdit.applyAll source fix.edits)).findings casings,
        g.problem ≠ .missingMain := by
  have hmem : f ∈ ((parse flavor source).findings casings).filter (·.problem == .missingMain) :=
    List.mem_filter.mpr ⟨hf, beq_iff_eq.mpr hmissing⟩
  rw [filter_findings_missingMain] at hmem
  split at hmem
  · obtain ⟨t, ht, rfl⟩ := Option.map_eq_some_iff.mp (Option.mem_toList.mp hmem)
    obtain ⟨ht, -⟩ := Option.filter_eq_some_iff.mp ht
    obtain ⟨m, after, hahead, hm⟩ := TokenStream.exists_main_ahead
      (c := (parse flavor source).checker casings) rfl ht
    refine ⟨_, rfl, fun g hg hgMissing => ?_⟩
    have hmem : g ∈ List.filter (·.problem == .missingMain) _ :=
      List.mem_filter.mpr ⟨hg, beq_iff_eq.mpr hgMissing⟩
    rw [filter_findings_missingMain, if_neg (nodes_mainBlock_of_ahead hahead hm)] at hmem
    cases hmem
  · cases hmem

theorem attributes_keyword {block : Tree} (h : block ∈ (parse flavor source).tree.subtrees) :
    ∀ t ∈ attributes block, ∃ s j, t.firstToken? = some s ∧ s.kind = .keyword j ∧
      lowercase s.text = j.spelling := by
  intro t ht
  obtain ⟨hchild, hattribute⟩ := List.mem_filter.mp ht
  have hsubtree := Tree.mem_subtrees_of_children h hchild
  obtain ⟨s, j, hfirst, hs⟩ :=
    ((isTolerated_tree flavor source).subtrees t hsubtree).firstToken_attribute hattribute
  have hleaf : s ∈ (parse flavor source).tree.leaves :=
    Tree.leaves_subset _ hsubtree (List.mem_of_find?_eq_some hfirst)
  exact ⟨s, j, hfirst, hs, (knows_of_mem_leaves flavor source [] hleaf).lowercase_text hs⟩

/-- **Each main block has as many repeated attributes as attributes less different keywords.** -/
theorem repeated_attributes :
    let p := parse flavor source
    ∃ groups : List (List Finding),
      (p.findings casings).filter (fun f => f.problem.isDuplicateAttribute) = groups.flatten ∧
      List.Forall₂ (fun block group =>
          (∃ repeated, List.Sublist repeated (block.nodes .mainAttribute) ∧
            group.map (·.range) = repeated.map (·.extent)) ∧
          group.length + ((block.nodes .mainAttribute).filterMap (·.keyword?)).toFinset.card =
            (block.nodes .mainAttribute).length)
        (p.tree.nodes .mainBlock) groups := by
  intro p
  refine ⟨(p.tree.nodes .mainBlock).map
    fun block => (repeatedAttributes [] (attributes block)).map repetition, ?_, ?_⟩
  · rw [filter_findings_mainBlock flavor source casings (·.isDuplicateAttribute)
      (by intro x hx; cases x <;> first | rfl | cases hx)]
    simp only [filter_mainBlockFindings_attribute]
    conv_rhs => rw [← map_snd_marking false (p.tree.nodes .mainBlock)]
    rw [List.map_map]
    rfl
  · refine List.forall₂_map_right_iff.mpr (List.forall₂_same.mpr fun block hblock => ?_)
    obtain ⟨hmem, htree, hnode⟩ := mainBlock_of_mem flavor source hblock
    rw [htree.nodes_mainBlock hnode]
    refine ⟨⟨(repeatedAttributes [] (attributes block)).map (·.2), ?_, ?_⟩, ?_⟩
    · exact repeatedAttributes_sublist [] _
    · rw [List.map_map, List.map_map]
      rfl
    · have hcount := length_repeatedAttributes (attributes_keyword flavor source hmem) []
      rw [List.toFinset_nil, Finset.sdiff_empty] at hcount
      rw [List.length_map]
      exact hcount

/-- **Main blocks are accounted for.** Every main block but the first is reported once, in document
order, at its keyword, and the fix deletes its text and nothing else. That there is no main block is
reported, once and at the first token, exactly if there is a first token and its lowercase is not the
beginning of the keyword, and after the fix it is not reported again. Each main block has as many
repeated attributes as attributes less different keywords of attributes. -/
theorem main_blocks_accounted (flavor : Flavor) (source : String) (casings : List String) :
    let p := parse flavor source
    let mains := p.tree.nodes .mainBlock
    let found (keep : Problem → Bool) := (p.findings casings).filter fun f => keep f.problem
    List.Forall₂ (fun block f => ∃ keyword, block.child? 0 = some (.token keyword) ∧
        keyword.kind = .keyword .main ∧ f.range = keyword.span ∧ f.Deletes source block)
      (mains.drop 1) (found (· == .duplicateMain)) ∧
    found (· == .missingMain) =
      (if mains = [] then
        ((p.stream.firstMeaningful?.filter
          fun t => !(lowercase t.text).toList.isPrefixOf "main".toList).map
            fun t => ⟨t.span, .missingMain, [(p.checker casings).addMain t]⟩).toList
      else []) ∧
    (∀ f ∈ p.findings casings, f.problem = .missingMain → ∃ fix, f.fixes = [fix] ∧
      ∀ g ∈ (parse flavor (TextEdit.applyAll source fix.edits)).findings casings,
        g.problem ≠ .missingMain) ∧
    ∃ groups : List (List Finding), found (·.isDuplicateAttribute) = groups.flatten ∧
      List.Forall₂ (fun block group =>
          (∃ repeated, List.Sublist repeated (block.nodes .mainAttribute) ∧
            group.map (·.range) = repeated.map (·.extent)) ∧
          group.length + ((block.nodes .mainAttribute).filterMap (·.keyword?)).toFinset.card =
            (block.nodes .mainAttribute).length)
        mains groups :=
  ⟨redeclared_mains flavor source casings, filter_findings_missingMain flavor source casings,
    fun _ hf hmissing => settled_of_addMain flavor source casings hf hmissing,
    repeated_attributes flavor source casings⟩

end Parse

end QuestScript
