import QuestScript.Proofs.Fix.Location
import QuestScript.Proofs.Fix.NewBlock
import QuestScript.Proofs.Fix.Words

/-! # Blocks that are put in or removed

A state or a main block that is put in (`improves_declare`, `improves_missingMain`) and a repeated
main block, attribute or description that is removed (`improves_duplicateMain`,
`improves_duplicateAttribute`, `improves_duplicateDescription`) improve a document. -/

namespace QuestScript

open Ast Lexeme

variable {flavor : Flavor} {source : String} {q : Quest Word flavor} {casings : List String}
  {d : Defect}

/-! ### Blocks that are put in -/

/-- What comes before the closing brace of a state does not depend on the blocks after it. -/
theorem exists_leaves_state (as : List (Block Word flavor)) (x : StateBlock Word flavor) :
    ∃ ms : List (Leaf Word), ∀ ys : List (Block Word flavor),
      Quest.leaves ⟨as ++ .state x :: ys⟩ = ms ++ .plain x.closing :: ys.flatMap Block.leaves := by
  refine ⟨as.flatMap Block.leaves ++ ([.plain x.keyword, .declares x.name, .plain x.opening] ++
    x.statements.flatMap Statement.leaves), fun ys => ?_⟩
  rw [Quest.leaves, List.flatMap_append, List.flatMap_cons, Block.leaves, StateBlock.leaves]
  simp only [List.append_assoc, List.singleton_append]

theorem stateNames_newState (name : String) :
    stateNames ((newState flavor name).leaves.map Leaf.mark) = [name] :=
  congrArg (· :: []) (Token.word_lexeme (newState flavor name).name.1)

theorem isReference_newState (name : String) :
    ∀ n ∈ (newState flavor name).leaves.map Leaf.mark, n.1.isReference = false := by
  refine List.forall_mem_map.mpr fun l hl => ?_
  revert l
  simp [newState, StateBlock.leaves, Leaf.mark, Leaf.plain, Leaf.declares, Role.isReference]

/-- **A state that a name refers to is declared.** -/
theorem improves_declare (h : Parse.Reads flavor source q) {as bs : List (Block Word flavor)}
    {x : StateBlock Word flavor} (hblocks : q.blocks = as ++ .state x :: bs)
    {name : Word .identifier}
    (hl : (.refers .state name : Leaf Word) ∈ q.leaves)
    (hlookup : ((parse flavor source).checker casings).catalog.lookup? .state name.1.text = none)
    (isPreferred : Bool) :
    Defect.unresolved.Improves flavor source casings
      (Checker.declareState name.1.text x.closing.1.span.stop isPreferred).edits := by
  have hname := (h.isFor casings).knows _ (List.mem_map_of_mem hl)
  have hword : name.1.kind.isWord = true := by rw [name.2]; rfl
  let new := newState flavor name.1.text
  obtain ⟨ms, hms⟩ := exists_leaves_state as x
  have hleaves : q.leaves = ms ++ .plain x.closing :: bs.flatMap Block.leaves := by
    rw [← hms, ← hblocks]
  have hnew : Quest.leaves ⟨as ++ .state x :: .state new :: bs⟩ =
      ms ++ .plain x.closing :: (new.leaves ++ bs.flatMap Block.leaves) := hms _
  have htokens : q.tokens = ms.map Leaf.token ++ x.closing.1 ::
      (bs.flatMap Block.leaves).map Leaf.token := by
    rw [Quest.tokens, hleaves, List.map_append, List.map_cons, Leaf.token_plain]
  have hspells := TokenStream.spells_insertAfter h.known (h.significant.trans htokens) x.closing.2
    (separate_newState (hname.word hword) ((hname.wordKind hword).trans name.2))
    (toList_newState name.1.text)
  refine improves_of_quest h ⟨as ++ .state x :: .state new :: bs⟩ ?_ ?_
  · rw [visible_stateLexemes flavor] at hspells
    rw [Quest.tokens, hnew, List.map_append, List.map_cons, List.map_append, List.map_append,
      List.map_cons, List.map_append]
    exact hspells
  · have hmarks : q.marks = (ms ++ [Leaf.plain x.closing]).map Leaf.mark ++
        (bs.flatMap Block.leaves).map Leaf.mark := by
      rw [Quest.marks, hleaves, ← List.map_append, List.append_assoc]
      rfl
    have hnewMarks : Quest.marks ⟨as ++ .state x :: .state new :: bs⟩ =
        (ms ++ [Leaf.plain x.closing]).map Leaf.mark ++
          (new.leaves.map Leaf.mark ++ (bs.flatMap Block.leaves).map Leaf.mark) := by
      rw [Quest.marks, hnew, ← List.map_append, ← List.map_append, List.append_assoc]
      rfl
    have hnone := h.lookup_eq casings .state name.1.text
    rw [hlookup] at hnone
    have hmem : (.refers .state, name.1.lexeme) ∈ q.marks := List.mem_map_of_mem (f := Leaf.mark) hl
    rw [hmarks] at hmem hnone
    rw [hmarks, hnewMarks]
    refine count_declare_lt hmem ?_ ?_ (isReference_newState name.1.text)
    · show (declared? _ _ _ name.1.lexeme.word).isNone = true
      rw [Token.word_lexeme, hnone]
      rfl
    · rw [Token.word_lexeme, stateNames_newState]
      exact List.mem_singleton_self _

/-- **A main block is put in** where there is none. -/
theorem improves_missingMain (h : Parse.Reads flavor source q) (hmains : q.mains = [])
    {t : Token} {ts : List Token} (htokens : q.tokens = t :: ts) (hk : t.kind = .keyword .state)
    {fix : QuickFix}
    (hfix : fix ∈ (((parse flavor source).checker casings).missingMainFinding t).fixes) :
    Defect.missingMain.Improves flavor source casings fix.edits := by
  rw [List.mem_singleton.mp hfix]
  have hhead : ∀ tail, ∀ c ∈ (chars mainLexemes ++ tail).head?, isDigit c = false := by
    intro tail
    rw [mainLexemes, chars_cons, List.append_assoc]
    exact not_isDigit_of_isWordText (isWordText_spelling .main)
  have hword : t.kind.isWord = true := by
    rw [hk]
    rfl
  have hspells := TokenStream.spells_insertFront h.known (h.significant.trans htokens) hword
    (c := (parse flavor source).checker casings) rfl (separate_newMain flavor) hhead toList_newMain
  have hnew : Quest.leaves ⟨.main newMain :: q.blocks⟩ = newMain.leaves ++ q.leaves :=
    List.flatMap_cons
  refine improves_of_quest h ⟨.main newMain :: q.blocks⟩ ?_ ?_
  · rw [visible_mainLexemes] at hspells
    rw [Quest.tokens, hnew, List.map_append, List.map_append]
    have hrest : (q.leaves.map Leaf.token).map Token.lexeme =
        t.lexeme :: ts.map Token.lexeme := congrArg (List.map Token.lexeme) htokens
    rw [hrest]
    exact hspells
  · have hcount : ∀ p : Quest Word flavor, Defect.missingMain.count flavor casings p.marks =
        if keywords p.leaves ≠ [] ∧ .main ∉ keywords p.leaves then 1 else 0 := by
      intro p
      simp only [← keywordsOf_marks]
      rfl
    have hzero : Defect.missingMain.count flavor casings
        (Quest.marks ⟨.main newMain :: q.blocks⟩) = 0 := by
      rw [hcount, hnew, if_neg]
      rintro ⟨-, hno⟩
      exact hno List.mem_cons_self
    have hone : Defect.missingMain.count flavor casings q.marks = 1 := by
      rw [hcount, if_pos]
      refine ⟨fun hnil => ?_, q.mains_eq_nil_iff.mp hmains⟩
      rw [q.keywords_eq_nil_iff, htokens] at hnil
      cases hnil
    rw [hzero, hone]
    exact Nat.one_pos

/-! ### Blocks and parts of blocks that are removed -/

theorem count_eq_repeats (q : Quest Word flavor) :
    Defect.duplicateAttribute.count flavor casings q.marks =
      repeats Keyword.opensAttribute [] (keywords q.leaves) ∧
    Defect.duplicateDescription.count flavor casings q.marks =
      repeats (· == .description) [] (keywords q.leaves) := by
  rw [← keywordsOf_marks]
  exact ⟨rfl, rfl⟩

theorem count_main_eq (q : Quest Word flavor) :
    Defect.duplicateMain.count flavor casings q.marks = q.mains.length - 1 := by
  rw [← q.count_main, ← keywordsOf_marks]
  rfl

/-- A part of a document that starts with a word is removed, where no number comes after it. -/
theorem improves_delete (h : Parse.Reads flavor source q) {ms ks ns : List (Leaf Word)}
    (hleaves : q.leaves = ms ++ (ks ++ ns)) {tree : Tree} (htree : tree.leaves = ks.map Leaf.token)
    (hword : ∃ t us, tree.leaves = t :: us ∧ t.kind.isWord = true)
    (hns : ∀ n ∈ ns.head?, n.kind ≠ .integer) (q' : Quest Word flavor)
    (hrest : q'.leaves = ms ++ ns)
    (hcount : d.count flavor casings q'.marks < d.count flavor casings q.marks) :
    d.Improves flavor source casings [.delete tree.extent] := by
  obtain ⟨t, us, htu, hword⟩ := hword
  have htokens : q.tokens = ms.map Leaf.token ++ (t :: us ++ ns.map Leaf.token) := by
    rw [Quest.tokens, hleaves, List.map_append, List.map_append, ← htree, htu]
  have hextent : tree.extent = ⟨t.span.start, ((t :: us).getLast (by simp)).span.stop⟩ := by
    rw [Tree.extent, htu, List.getLast?_eq_some_getLast (by simp)]
    rfl
  have hnext : ∀ v ∈ (ns.map Leaf.token).head?, v.kind ≠ .integer := by
    intro v hv
    rw [List.head?_map] at hv
    obtain ⟨n, hn, rfl⟩ := Option.map_eq_some_iff.mp hv
    rw [n.kind_token]
    exact hns n hn
  have hspells := TokenStream.spells_delete h.known (h.significant.trans htokens) hword hnext
  rw [← hextent] at hspells
  refine improves_of_quest h q' ?_ hcount
  rw [Quest.tokens, hrest, List.map_append, List.map_append]
  exact hspells

theorem head_flatMap {β : Type} {leaves : β → List (Leaf Word)}
    (h : ∀ x, ∃ l ls, leaves x = l :: ls ∧ l.kind.isKeyword = true) (xs : List β)
    {rest : List (Leaf Word)} (hrest : ∀ n ∈ rest.head?, n.kind ≠ .integer) :
    ∀ n ∈ (xs.flatMap leaves ++ rest).head?, n.kind ≠ .integer := by
  cases xs with
  | nil => exact hrest
  | cons x xs =>
    obtain ⟨l, ls, hl, hk⟩ := h x
    rw [List.flatMap_cons, hl]
    rintro n ⟨⟩ hinteger
    rw [hinteger] at hk
    cases hk

theorem exists_first_block (x : Block Word flavor) :
    ∃ l ls, x.leaves = l :: ls ∧ l.kind.isKeyword = true := by
  cases x <;> exact ⟨_, _, rfl, rfl⟩

theorem exists_first_attribute (x : Attribute Word) :
    ∃ l ls, x.leaves = l :: ls ∧ l.kind.isKeyword = true := by
  cases x <;> exact ⟨_, _, rfl, rfl⟩

theorem exists_first_statement (x : Statement Word flavor) :
    ∃ l ls, x.leaves = l :: ls ∧ l.kind.isKeyword = true := by
  cases x <;> exact ⟨_, _, rfl, rfl⟩

theorem exists_first_tree {tree : Tree} {ls : List (Leaf Word)}
    (htree : tree.leaves = ls.map Leaf.token)
    (h : ∃ m ms, ls = m :: ms ∧ m.kind.isKeyword = true) :
    ∃ t us, tree.leaves = t :: us ∧ t.kind.isWord = true := by
  obtain ⟨m, ms, rfl, hk⟩ := h
  refine ⟨m.token, _, htree, ?_⟩
  rw [m.kind_token]
  cases hkind : m.kind with
  | keyword k => rfl
  | _ =>
    rw [hkind] at hk
    cases hk

/-- **A repeated main block is removed.** -/
theorem improves_duplicateMain (h : Parse.Reads flavor source q) {as bs : List (Block Word flavor)}
    {x : MainBlock Word} (hblocks : q.blocks = as ++ .main x :: bs)
    (has : as.filterMap Block.main? ≠ []) :
    Defect.duplicateMain.Improves flavor source casings [.delete x.toTree.extent] := by
  have hleaves : q.leaves = as.flatMap Block.leaves ++ (x.leaves ++ bs.flatMap Block.leaves) := by
    rw [Quest.leaves, hblocks, List.flatMap_append, List.flatMap_cons]
    rfl
  have htree := x.leaves_toTree
  have hnext : ∀ n ∈ (bs.flatMap Block.leaves ++ []).head?, n.kind ≠ .integer :=
    head_flatMap exists_first_block bs (by simp)
  rw [List.append_nil] at hnext
  refine improves_delete h hleaves htree (exists_first_tree htree ⟨_, _, rfl, rfl⟩) hnext
    ⟨as ++ bs⟩ List.flatMap_append ?_
  have hpos : 0 < (as.filterMap Block.main?).length := List.length_pos_of_ne_nil has
  have hlength : q.mains.length = (Quest.mains ⟨as ++ bs⟩).length + 1 := by
    rw [Quest.mains, Quest.mains, hblocks, List.filterMap_append, List.filterMap_append,
      List.filterMap_cons_some (f := Block.main?) rfl, List.length_append, List.length_append,
      List.length_cons]
    omega
  have hrest : 0 < (Quest.mains (⟨as ++ bs⟩ : Quest Word flavor)).length := by
    rw [Quest.mains, List.filterMap_append, List.length_append]
    omega
  rw [count_main_eq, count_main_eq, hlength]
  omega

/-- **A part of a block is removed** whose keyword stands before in the block. -/
theorem improves_repeated {p : Keyword → Bool}
    (hd : ∀ q : Quest Word flavor,
      d.count flavor casings q.marks = repeats p [] (keywords q.leaves))
    (h : Parse.Reads flavor source q) {ms ks ns : List (Leaf Word)}
    (hleaves : q.leaves = ms ++ (ks ++ ns)) {tree : Tree} (htree : tree.leaves = ks.map Leaf.token)
    (hfirst : ∃ l ls, ks = l :: ls ∧ l.kind.isKeyword = true)
    (hns : ∀ n ∈ ns.head?, n.kind ≠ .integer) (q' : Quest Word flavor)
    (hrest : q'.leaves = ms ++ ns) {js ls : List Keyword} {j k : Keyword}
    (hms : keywords ms = js ++ j :: ls) (hks : keywords ks = [k]) (hj : j.opensBlock = true)
    (hp : p k = true) (hls : ∀ i ∈ ls, i.opensBlock = false) (hmem : k ∈ ls) :
    d.Improves flavor source casings [.delete tree.extent] := by
  refine improves_delete h hleaves htree (exists_first_tree htree hfirst) hns q' hrest ?_
  rw [hd, hd, hleaves, hrest, keywords_append, keywords_append, keywords_append, hms, hks]
  exact repeats_lt hj hp (hls k hmem) hls hmem

/-- **A repeated attribute is removed.** -/
theorem improves_duplicateAttribute (h : Parse.Reads flavor source q)
    {as bs : List (Block Word flavor)} {x : MainBlock Word}
    (hblocks : q.blocks = as ++ .main x :: bs) {y : Attribute Word}
    (hy : y ∈ Checker.repeated [] x.attributes) :
    Defect.duplicateAttribute.Improves flavor source casings [.delete y.toTree.extent] := by
  obtain ⟨cs, ds, hattributes, hrepeated⟩ := exists_repeatedAttribute hy
  have hmem : y.keyword ∈ cs.map Attribute.keyword := hrepeated.resolve_left (by simp)
  -- the leaves before and after the attributes from `y` on
  obtain ⟨ms, rest, hparts, hms, hnext⟩ : ∃ ms rest : List (Leaf Word),
      (∀ zs, Quest.leaves
        (⟨as ++ .main ⟨x.keyword, x.opening, cs ++ zs, x.closing⟩ :: bs⟩ : Quest Word flavor) =
          ms ++ (zs.flatMap Attribute.leaves ++ rest)) ∧
      keywords ms = keywords (as.flatMap Block.leaves) ++ .main :: cs.map Attribute.keyword ∧
      ∀ n ∈ rest.head?, n.kind ≠ .integer := by
    refine ⟨as.flatMap Block.leaves ++
      ([.plain x.keyword, .plain x.opening] ++ cs.flatMap Attribute.leaves),
      .plain x.closing :: bs.flatMap Block.leaves, fun zs => ?_, ?_, by simp [Leaf.plain]⟩
    · simp [Quest.leaves, Block.leaves, MainBlock.leaves]
    · rw [keywords_append, ← Attribute.keywords_flatMap]
      rfl
  have hleaves : q.leaves = ms ++ (y.leaves ++ (ds.flatMap Attribute.leaves ++ rest)) := by
    have hq : q = ⟨as ++ .main ⟨x.keyword, x.opening, cs ++ (y :: ds), x.closing⟩ :: bs⟩ := by
      rw [← hattributes, ← hblocks]
    rw [hq, hparts, List.flatMap_cons, List.append_assoc y.leaves]
  refine improves_repeated (fun q => (count_eq_repeats q).1) h hleaves y.leaves_toTree
    (exists_first_attribute y) (head_flatMap exists_first_attribute ds hnext) _ (hparts ds) hms
    y.keywords_leaves rfl y.opensAttribute_keyword (fun k hk => ?_) hmem
  obtain ⟨z, -, rfl⟩ := List.mem_map.mp hk
  exact Keyword.opensBlock_of_opensAttribute z.opensAttribute_keyword

/-- **A repeated description is removed.** -/
theorem improves_duplicateDescription (h : Parse.Reads flavor source q)
    {as bs : List (Block Word flavor)} {x : StateBlock Word flavor}
    (hblocks : q.blocks = as ++ .state x :: bs) {y : Statement Word flavor}
    (hy : y ∈ (x.statements.filter (·.isDescription)).drop 1) :
    Defect.duplicateDescription.Improves flavor source casings [.delete y.inner.extent] := by
  obtain ⟨cs, ds, hstatements, hdescription, first, hfirst, hfirstDescription⟩ :=
    exists_repeatedDescription hy
  have hkeywords : ∀ z : Statement Word flavor, z.isDescription = true →
      z.keywords = [.description] := by
    intro z hz
    cases z with
    | description keyword text close => rfl
    | _ => cases hz
  have hmem : Keyword.description ∈ cs.flatMap Statement.keywords :=
    List.mem_flatMap.mpr ⟨first, hfirst, by rw [hkeywords first hfirstDescription]; simp⟩
  -- the leaves before and after the statements from `y` on
  obtain ⟨ms, rest, hparts, hms, hnext⟩ : ∃ ms rest : List (Leaf Word),
      (∀ zs, Quest.leaves
        ⟨as ++ .state ⟨x.keyword, x.name, x.opening, cs ++ zs, x.closing⟩ :: bs⟩ =
          ms ++ (zs.flatMap Statement.leaves ++ rest)) ∧
      keywords ms = keywords (as.flatMap Block.leaves) ++ .state :: cs.flatMap Statement.keywords ∧
      ∀ n ∈ rest.head?, n.kind ≠ .integer := by
    refine ⟨as.flatMap Block.leaves ++
      ([.plain x.keyword, .declares x.name, .plain x.opening] ++ cs.flatMap Statement.leaves),
      .plain x.closing :: bs.flatMap Block.leaves, fun zs => ?_, ?_, by simp [Leaf.plain]⟩
    · simp [Quest.leaves, Block.leaves, StateBlock.leaves]
    · rw [keywords_append, ← Statement.keywords_flatMap]
      rfl
  have hleaves : q.leaves = ms ++ (y.leaves ++ (ds.flatMap Statement.leaves ++ rest)) := by
    have hq : q = ⟨as ++ .state ⟨x.keyword, x.name, x.opening, cs ++ (y :: ds), x.closing⟩ :: bs⟩ := by
      rw [← hstatements, ← hblocks]
    rw [hq, hparts, List.flatMap_cons, List.append_assoc y.leaves]
  refine improves_repeated (fun q => (count_eq_repeats q).2) h hleaves (Checker.leaves_inner y)
    (exists_first_statement y) (head_flatMap exists_first_statement ds hnext) _ (hparts ds) hms
    (y.keywords_leaves.trans (hkeywords y hdescription)) rfl rfl (fun k hk => ?_) hmem
  obtain ⟨z, -, hk⟩ := List.mem_flatMap.mp hk
  exact (z.opens_keywords k hk).1

end QuestScript
