import Mathlib.Algebra.GroupWithZero.Nat
import QuestScript.Proofs.Check.WellFormed
import QuestScript.Proofs.Fix.Defect

/-! # Findings by their defect

The marked words of a quest (`Quest.marks`) tell how often each defect is found in it
(`Quest.countIn_findings`). -/

namespace QuestScript

open Ast Lexeme

@[simp] theorem Token.word_lexeme (t : Token) : t.lexeme.word = t.text := String.ofList_toList

/-- Number of findings of a defect. -/
def Defect.countIn (d : Defect) (fs : List Finding) : Nat :=
  fs.countP fun f => f.problem.defect? == some d

theorem Defect.countIn_append (d : Defect) (fs gs : List Finding) :
    d.countIn (fs ++ gs) = d.countIn fs + d.countIn gs :=
  List.countP_append

theorem Defect.countIn_eq_zero {d : Defect} {fs : List Finding}
    (h : ∀ f ∈ fs, f.problem.defect? ≠ some d) : d.countIn fs = 0 :=
  List.countP_eq_zero.mpr fun f hf => by simpa using h f hf

/-! ### Marked words of a quest -/

namespace Ast
variable {flavor : Flavor}

/-- A leaf as a marked word. -/
def Leaf.mark (l : Leaf Word) : Mark := (l.role, l.token.lexeme)

/-- The marked words of a quest. -/
def Quest.marks (q : Quest Word flavor) : List Mark := q.leaves.map Leaf.mark

theorem marks_of_follows {before : TokenKind} {ls : List (Leaf Word)} (h : Follows before ls) :
    ls.map Leaf.mark = marks before (ls.map fun l => l.token.lexeme) := by
  induction ls generalizing before with
  | nil => rfl
  | cons l ls ih =>
    obtain ⟨hrole, hrest⟩ := h
    have hkind : l.token.lexeme.kind = l.kind := l.kind_token
    rw [List.map_cons, List.map_cons, QuestScript.marks, hkind, ← hrole, ih hrest]
    rfl

/-- **The marks of a quest follow from its lexemes.** -/
theorem Quest.marks_eq (q : Quest Word flavor) :
    q.marks = QuestScript.marks .rightBrace (q.tokens.map Token.lexeme) := by
  rw [marks, marks_of_follows (q.followsAll_leaves .rightBrace), tokens, List.map_map]
  rfl

theorem keywordsOf_marks (ls : List (Leaf Word)) :
    keywordsOf ((ls.map Leaf.mark).map Prod.snd) = keywords ls := by
  rw [keywordsOf, List.map_map, List.filterMap_map]
  refine List.filterMap_congr fun l _ => ?_
  show l.token.kind.keyword? = l.kind.keyword?
  rw [l.kind_token]

theorem Expression.not_declares (x : Expression Word) (kind : SymbolKind) :
    ∀ l ∈ x.leaves kind, l.role ≠ .declares := by
  cases x with
  | invocation x =>
    refine List.forall_mem_cons.mpr ⟨by simp [Leaf.refers], fun l hl => ?_⟩
    rw [(x.arguments.isPlain_leaves l hl).1]
    simp
  | goto keyword target => simp [leaves, Leaf.plain, Leaf.refers]
  | literal x =>
    refine List.forall_mem_singleton.mpr ?_
    rw [x.isPlain_leaf.1]
    simp

theorem Statement.not_declares (x : Statement Word flavor) : ∀ l ∈ x.leaves, l.role ≠ .declares := by
  have hplain : ∀ ls : List (Leaf Word), (∀ l ∈ ls, l.IsPlain) → ∀ l ∈ ls, l.role ≠ .declares := by
    intro ls h l hl
    rw [(h l hl).1]
    simp
  have hclose := fun close => hplain _ (isPlain_close (α := Word) close)
  have harguments := fun y : ArgumentList Word => hplain _ y.isPlain_leaves
  cases x with
  | description keyword text close =>
    exact List.forall_mem_append.mpr ⟨by simp [Leaf.plain], hclose close⟩
  | rule keyword condition goto target close =>
    simp only [leaves, Invocation.leaves, List.forall_mem_cons, List.forall_mem_append]
    exact ⟨by simp [Leaf.plain], ⟨by simp [Leaf.refers], harguments _⟩,
      ⟨by simp [Leaf.plain], by simp [Leaf.refers], by simp⟩, hclose close⟩
  | action keyword effect close =>
    simp only [leaves, Invocation.leaves, List.forall_mem_cons, List.forall_mem_append]
    exact ⟨by simp [Leaf.plain], ⟨by simp [Leaf.refers], harguments _⟩, hclose close⟩
  | conditional c keyword condition effect close =>
    simp only [leaves, List.forall_mem_cons, List.forall_mem_append]
    exact ⟨by simp [Leaf.plain], condition.not_declares .rule, effect.not_declares .action,
      hclose close⟩
  | unconditional c keyword effect close =>
    simp only [leaves, List.forall_mem_cons, List.forall_mem_append]
    exact ⟨by simp [Leaf.plain], effect.not_declares .action, hclose close⟩

theorem stateNames_eq_nil {ls : List (Leaf Word)} (h : ∀ l ∈ ls, l.role ≠ .declares) :
    stateNames (ls.map Leaf.mark) = [] := by
  have hnone : (ls.map Leaf.mark).filter (·.1 = .declares) = [] := by
    refine List.filter_eq_nil_iff.mpr fun m hm => ?_
    obtain ⟨l, hl, rfl⟩ := List.mem_map.mp hm
    rw [decide_eq_true_iff]
    exact h l hl
  rw [stateNames, hnone]
  rfl

theorem Block.stateNames_leaves (x : Block Word flavor) :
    stateNames (x.leaves.map Leaf.mark) = x.state?.toList.map (·.name.1.text) := by
  cases x with
  | main x =>
    refine stateNames_eq_nil fun l hl => ?_
    rw [x.role_leaves l hl]
    simp
  | state x =>
    have hstatements : ∀ l ∈ x.statements.flatMap Statement.leaves ++ [Leaf.plain x.closing],
        l.role ≠ .declares := by
      refine List.forall_mem_append.mpr ⟨fun l hl => ?_, by simp [Leaf.plain]⟩
      obtain ⟨y, -, hl⟩ := List.mem_flatMap.mp hl
      exact y.not_declares l hl
    have hnames := stateNames_eq_nil hstatements
    show stateNames (Leaf.mark _ :: Leaf.mark (.declares x.name) :: Leaf.mark _ ::
      (x.statements.flatMap Statement.leaves ++ [Leaf.plain x.closing]).map Leaf.mark) = _
    unfold stateNames at hnames ⊢
    rw [List.filter_cons_of_neg (by simp [Leaf.mark, Leaf.plain]),
      List.filter_cons_of_pos (by simp [Leaf.mark, Leaf.declares]),
      List.filter_cons_of_neg (by simp [Leaf.mark, Leaf.plain]), List.map_cons, hnames]
    exact congrArg (· :: []) (Token.word_lexeme x.name.1)

/-- **The names of the states**, told from the marks. -/
theorem Quest.stateNames_marks (q : Quest Word flavor) :
    stateNames q.marks = q.states.map (·.name.1.text) := by
  rw [marks, leaves, states]
  induction q.blocks with
  | nil => rfl
  | cons x xs ih =>
    rw [List.flatMap_cons, List.map_append, stateNames_append, ih, x.stateNames_leaves]
    cases x <;> rfl

end Ast

/-! ### Findings at a site -/

section Sites
variable {flavor : Flavor} {c : Checker} {d : Defect} {t : Token} {kind : SymbolKind} {ρ : Role}

/-- The marked word has the defect. -/
def Defect.isAt (flavor : Flavor) (casings states : List String) (m : Mark) : Defect → Bool
  | keywordCasing => isMiswritten casings m
  | unresolved => isUnresolved flavor states m
  | referenceCasing => isMiscased flavor states m
  | _ => false

/-- Number of times a main block has a defect, where one may have been seen before. -/
def Defect.inMain (seen : Bool) (x : MainBlock Word) : Defect → Nat
  | duplicateMain => if seen then 1 else 0
  | duplicateAttribute => (Checker.repeated [] x.attributes).length
  | _ => 0

/-- Number of times a state has a defect. -/
def Defect.inState (x : StateBlock Word flavor) : Defect → Nat
  | duplicateDescription => x.statements.countP (·.isDescription) - 1
  | _ => 0

theorem isAt_of_not_reference {casings states : List String} {m : Mark}
    (h : m.1.isReference = false) :
    d.isAt flavor casings states m = (d == .keywordCasing && isMiswritten casings m) := by
  have hunresolved : isUnresolved flavor states m = false := by
    unfold isUnresolved
    cases hrole : m.1 <;> simp_all [Role.isReference]
  have hmiscased : isMiscased flavor states m = false := by
    unfold isMiscased
    cases hrole : m.1 <;> simp_all [Role.isReference]
  cases d with
  | keywordCasing => rfl
  | unresolved => exact hunresolved
  | referenceCasing => exact hmiscased
  | _ => rfl

theorem isMiswritten_lexeme (casings : List String) : isMiswritten casings (ρ, t.lexeme) =
    !(!t.kind.isKeyword || t.text == lowercase t.text || casings.contains t.text) := by
  unfold isMiswritten
  rw [t.word_lexeme, Bool.or_assoc, Bool.not_or (!t.kind.isKeyword), Bool.not_not]
  rfl

theorem countIn_keywordFindings : d.countIn (c.keywordFindings t) =
    if d == .keywordCasing && isMiswritten c.casings (ρ, t.lexeme) then 1 else 0 := by
  rw [isMiswritten_lexeme, Checker.keywordFindings]
  cases !t.kind.isKeyword || t.text == lowercase t.text || c.casings.contains t.text with
  | true => simp [Defect.countIn]
  | false => cases d <;> rfl

theorem defect?_invocationFindings (b : Builtin) (x : ArgumentList Word) :
    ∀ f ∈ Checker.invocationFindings b t x, f.problem.defect? = none ∧ f.fixes = [] := by
  intro f hf
  rcases List.mem_append.mp hf with hf | hf
  · split at hf
    · rw [List.mem_singleton.mp hf]
      exact ⟨rfl, rfl⟩
    · cases hf
  · unfold Checker.argumentFindings at hf
    dsimp only at hf
    split at hf
    · rw [List.mem_singleton.mp hf]
      exact ⟨rfl, rfl⟩
    split at hf
    · rw [List.mem_singleton.mp hf]
      exact ⟨rfl, rfl⟩
    · obtain ⟨y, -, hf⟩ := List.mem_flatMap.mp hf
      split at hf
      · cases hf
      · rw [List.mem_singleton.mp hf]
        exact ⟨rfl, rfl⟩

theorem referenceFindings_eq_append {symbol : Symbol} (arguments : Option (ArgumentList Word))
    (stop : Position) (h : c.catalog.lookup? kind t.text = some symbol) :
    ∃ fs, c.referenceFindings kind t arguments stop = fs ++ Checker.casingFindings t symbol.name ∧
      ∀ f ∈ fs, f.problem.defect? = none ∧ f.fixes = [] := by
  unfold Checker.referenceFindings
  rw [h]
  refine ⟨_, rfl, fun f hf => ?_⟩
  split at hf
  · exact defect?_invocationFindings _ _ f hf
  · cases hf

/-- **What is found at a name** is told from what the name is declared as. -/
theorem countIn_referenceFindings {states : List String} {stop : Position}
    (arguments : Option (ArgumentList Word)) (hkind : t.kind = .identifier)
    (h : declared? flavor states kind t.text = (c.catalog.lookup? kind t.text).map Symbol.name) :
    d.countIn (c.referenceFindings kind t arguments stop) =
      if d.isAt flavor c.casings states (.refers kind, t.lexeme) then 1 else 0 := by
  have hkeyword : isMiswritten c.casings (.refers kind, t.lexeme) = false := by
    unfold isMiswritten
    show (t.kind.isKeyword && _) = false
    rw [hkind]
    rfl
  have hunresolved : isUnresolved flavor states (.refers kind, t.lexeme) =
      (c.catalog.lookup? kind t.text).isNone := by
    show (declared? flavor states kind t.lexeme.word).isNone = _
    rw [t.word_lexeme, h, Option.isNone_map]
  have hmiscased : isMiscased flavor states (.refers kind, t.lexeme) =
      (c.catalog.lookup? kind t.text).any (·.name != t.text) := by
    show (declared? flavor states kind t.lexeme.word).any (· != t.lexeme.word) = _
    rw [t.word_lexeme, h, Option.any_map]
  cases hlookup : c.catalog.lookup? kind t.text with
  | none =>
    rw [hlookup] at hunresolved hmiscased
    rw [Checker.referenceFindings, hlookup]
    cases d <;> simp [Defect.isAt, hkeyword, hunresolved, hmiscased, Defect.countIn,
      Checker.unresolvedFinding, Problem.defect?]
  | some symbol =>
    rw [hlookup] at hunresolved hmiscased
    obtain ⟨fs, hfs, hnone⟩ := referenceFindings_eq_append arguments stop hlookup
    have hzero : d.countIn fs = 0 := Defect.countIn_eq_zero fun f hf => by simp [(hnone f hf).1]
    rw [hfs, Defect.countIn_append, hzero, Nat.zero_add, Checker.casingFindings]
    by_cases hname : t.text = symbol.name
    · cases d <;> simp [Defect.isAt, hkeyword, hunresolved, hmiscased, Defect.countIn, hname]
    · cases d <;> simp [Defect.isAt, hkeyword, hunresolved, hmiscased, Defect.countIn, hname,
        Problem.defect?, Ne.symm hname]

theorem countIn_singleton (f : Finding) :
    d.countIn [f] = if f.problem.defect? = some d then 1 else 0 := by
  simp [Defect.countIn]

theorem countIn_map_of_defect {β : Type} {finding : β → Finding} {e : Defect}
    (h : ∀ x, (finding x).problem.defect? = some e) (xs : List β) :
    d.countIn (xs.map finding) = if e = d then xs.length else 0 := by
  induction xs with
  | nil => simp [Defect.countIn]
  | cons x xs ih =>
    have hx : d.countIn [finding x] = if e = d then 1 else 0 := by
      rw [countIn_singleton, h x]
      simp
    rw [List.map_cons, ← List.singleton_append, Defect.countIn_append, hx, ih]
    split
    · rw [List.length_cons]
      omega
    · rfl

theorem countIn_mainFindings (seen : Bool) (x : MainBlock Word) :
    d.countIn (Checker.mainFindings seen x) = d.inMain seen x := by
  rw [Checker.mainFindings, Defect.countIn_append,
    countIn_map_of_defect (e := .duplicateAttribute) fun _ => rfl]
  cases seen <;> cases d <;> simp [Defect.inMain, Defect.countIn, Finding.fixable, Problem.defect?]

theorem countIn_stateNameFindings (c : Checker) (name : Token) :
    d.countIn (c.stateNameFindings name) = 0 := by
  refine Defect.countIn_eq_zero fun f hf => ?_
  unfold Checker.stateNameFindings at hf
  split at hf
  · split at hf
    · cases hf
    · rw [List.mem_singleton.mp hf]
      simp [Finding.plain, Problem.defect?]
  · cases hf

theorem countIn_stateFindings (c : Checker) (x : StateBlock Word flavor) :
    d.countIn (c.stateFindings x) = d.inState x := by
  rw [Checker.stateFindings, Defect.countIn_append, countIn_stateNameFindings,
    countIn_map_of_defect (e := .duplicateDescription) fun _ => rfl, Nat.zero_add,
    List.length_drop, ← List.countP_eq_length_filter]
  cases d <;> simp [Defect.inState]

theorem Checker.IsFor.declared?_eq {q : Quest Word flavor} (h : c.IsFor q) (kind : SymbolKind)
    (name : String) : declared? flavor (q.states.map (·.name.1.text)) kind name =
      (c.catalog.lookup? kind name).map Symbol.name := by
  by_cases hkind : kind = .state
  · rw [hkind, h.lookup_state, declared?, namesOf, List.find?_map, List.find?_map, Option.map_map]
    rfl
  · rw [Catalog.lookup?_builtin hkind, h.flavor_eq, declared?, Option.map_map]
    cases kind with
    | state => exact absurd rfl hkind
    | _ => exact List.find?_map

theorem Ast.Site.exists_leaf_word (flavor : Flavor) (l : Leaf Word) :
    ∃ m : Leaf Word, (Site.word l : Site flavor).leaf? = some m ∧ m.role.isReference = false ∧
      m.token = l.token := by
  cases hrole : l.role.isReference with
  | false => exact ⟨l, by rw [Site.leaf?, hrole]; rfl, hrole, rfl⟩
  | true => exact ⟨.plain l.word, by rw [Site.leaf?, hrole]; rfl, rfl, rfl⟩

/-- **The findings at sites** by their defect. -/
theorem countIn_sites {q : Quest Word flavor} (h : c.IsFor q) (ss : List (Site flavor)) :
    d.countIn (ss.flatMap (Site.findings c)) =
      (ss.filterMap Site.leaf?).countP (fun l => d.isAt flavor c.casings
        (q.states.map (·.name.1.text)) l.mark) +
      ((ss.filterMap Site.main?).map fun p => d.inMain p.1 p.2).sum +
      ((ss.filterMap Site.state?).map d.inState).sum := by
  induction ss with
  | nil => rfl
  | cons s ss ih =>
    rw [List.flatMap_cons, Defect.countIn_append, ih]
    cases s with
    | word l =>
      obtain ⟨m, hm, hreference, htoken⟩ := Site.exists_leaf_word flavor l
      have hword : d.countIn (Site.findings c (.word l : Site flavor)) =
          if d.isAt flavor c.casings (q.states.map (·.name.1.text)) m.mark then 1 else 0 := by
        rw [isAt_of_not_reference hreference, Leaf.mark, htoken]
        exact countIn_keywordFindings
      rw [hword, List.filterMap_cons_some hm, List.filterMap_cons_none rfl,
        List.filterMap_cons_none rfl, List.countP_cons]
      omega
    | reference kind name arguments stop =>
      have hname : d.countIn (Site.findings c (.reference kind name arguments stop : Site flavor)) =
          if d.isAt flavor c.casings (q.states.map (·.name.1.text))
            (Leaf.refers kind name : Leaf Word).mark then 1 else 0 :=
        countIn_referenceFindings arguments name.2 (h.declared?_eq kind name.1.text)
      rw [hname, List.filterMap_cons_some (f := Site.leaf?) rfl, List.filterMap_cons_none rfl,
        List.filterMap_cons_none rfl, List.countP_cons]
      omega
    | gotoCondition x =>
      have hgoto : d.countIn (Site.findings c (.gotoCondition x : Site flavor)) = 0 := rfl
      rw [hgoto, List.filterMap_cons_none rfl, List.filterMap_cons_none rfl,
        List.filterMap_cons_none rfl, Nat.zero_add]
    | main seen x =>
      have hmain : d.countIn (Site.findings c (.main seen x : Site flavor)) = d.inMain seen x :=
        countIn_mainFindings seen x
      rw [hmain, List.filterMap_cons_none rfl, List.filterMap_cons_some (f := Site.main?) rfl,
        List.filterMap_cons_none rfl, List.map_cons, List.sum_cons]
      dsimp only
      omega
    | state x =>
      have hstate : d.countIn (Site.findings c (.state x)) = d.inState x := countIn_stateFindings c x
      rw [hstate, List.filterMap_cons_none rfl, List.filterMap_cons_none rfl,
        List.filterMap_cons_some (f := Site.state?) rfl, List.map_cons, List.sum_cons]
      omega

end Sites

/-! ### Findings of a quest -/

namespace Ast
variable {flavor : Flavor} {c : Checker}

theorem sum_marked_seen (xs : List (MainBlock Word)) :
    ((marked false xs).map fun p => if p.1 then 1 else 0).sum = xs.length - 1 := by
  have htrue : ∀ xs : List (MainBlock Word),
      ((marked true xs).map fun p => if p.1 then 1 else 0).sum = xs.length := by
    intro xs
    induction xs with
    | nil => rfl
    | cons x xs ih =>
      rw [marked, List.map_cons, List.sum_cons, ih, if_pos rfl, List.length_cons]
      omega
  cases xs with
  | nil => rfl
  | cons x xs =>
    rw [marked, List.map_cons, List.sum_cons, htrue, if_neg (by simp), List.length_cons]
    omega

theorem length_repeated (seen : List Keyword) (xs : List (Attribute Word)) :
    (Checker.repeated seen xs).length =
      repeats Keyword.opensAttribute seen (xs.map Attribute.keyword) := by
  induction xs generalizing seen with
  | nil => rfl
  | cons x xs ih =>
    have hopens := x.opensAttribute_keyword
    have hblock : ¬ x.keyword.opensBlock = true := by
      rw [Keyword.opensBlock_of_opensAttribute hopens]
      simp
    rw [List.map_cons, repeats, if_neg hblock, hopens, Bool.true_and, Checker.repeated, ← ih, ← ih]
    by_cases hseen : x.keyword ∈ seen
    · simp [hseen]
    · simp [hseen]

/-- **Repeated attributes** are counted main block by main block. -/
theorem Quest.sum_repeated (q : Quest Word flavor) :
    ((marked false q.mains).map fun p => (Checker.repeated [] p.2.attributes).length).sum =
      repeats Keyword.opensAttribute [] (keywords q.leaves) := by
  rw [q.repeats_keywords, mains]
  generalize false = seen
  induction q.blocks generalizing seen with
  | nil => rfl
  | cons x xs ih =>
    rw [List.map_cons, List.sum_cons]
    cases x with
    | main x =>
      rw [List.filterMap_cons_some (f := Block.main?) rfl, marked, List.map_cons, List.sum_cons, ih]
      exact congrArg (· + _) (length_repeated [] x.attributes)
    | state x =>
      have hzero : repeats Keyword.opensAttribute [] (Block.innerKeywords (.state x)) = 0 := by
        refine repeats_eq_zero fun k hk => ?_
        obtain ⟨y, -, hk⟩ := List.mem_flatMap.mp hk
        exact y.opens_keywords k hk
      rw [List.filterMap_cons_none rfl, ih, hzero, Nat.zero_add]

/-- **Repeated descriptions** are counted state by state. -/
theorem Quest.sum_descriptions (q : Quest Word flavor) :
    (q.states.map fun x => x.statements.countP (·.isDescription) - 1).sum =
      repeats (· == .description) [] (keywords q.leaves) := by
  rw [q.repeats_keywords, states]
  induction q.blocks with
  | nil => rfl
  | cons x xs ih =>
    rw [List.map_cons, List.sum_cons, ← ih, repeats_description x.opensBlock_innerKeywords,
      if_neg (by simp)]
    cases x with
    | main x =>
      have hzero : (Block.innerKeywords (.main x : Block Word flavor)).count .description = 0 := by
        refine List.count_eq_zero.mpr fun hmem => ?_
        obtain ⟨y, -, hy⟩ := List.mem_map.mp hmem
        have := y.opensAttribute_keyword
        rw [hy] at this
        cases this
      rw [List.filterMap_cons_none rfl, hzero, Nat.zero_sub, Nat.zero_add]
    | state x =>
      have hcount : (Block.innerKeywords (.state x)).count .description =
          x.statements.countP (·.isDescription) := by
        rw [Block.innerKeywords]
        induction x.statements with
        | nil => rfl
        | cons y ys ih =>
          rw [List.flatMap_cons, List.count_append, ih, y.count_description, List.countP_cons]
          omega
      rw [List.filterMap_cons_some (f := Block.state?) rfl, List.map_cons, List.sum_cons, hcount]

theorem Quest.mains_eq_nil_iff (q : Quest Word flavor) :
    q.mains = [] ↔ .main ∉ keywords q.leaves := by
  rw [← List.count_eq_zero, q.count_main, List.length_eq_zero_iff]

theorem Quest.keywords_eq_nil_iff (q : Quest Word flavor) :
    keywords q.leaves = [] ↔ q.tokens = [] := by
  rw [q.keywords_leaves, tokens_eq_nil_iff]
  cases q.blocks <;> simp

theorem countIn_checkMainExists {q : Quest Word flavor} (h : c.IsFor q) (hmains : q.mains = [])
    (d : Defect) :
    d.countIn c.checkMainExists.findings = if d = .missingMain ∧ q.tokens ≠ [] then 1 else 0 := by
  rcases Checker.checkMainExists_eq h hmains with ⟨htokens, hfound⟩ | ⟨t, ts, htokens, -, hfound⟩
  · rw [hfound, htokens, if_neg (by simp)]
    rfl
  · rw [hfound, htokens, countIn_singleton]
    cases d <;> simp [Checker.missingMainFinding, Problem.defect?]

/-- **How often a defect is found in a quest** is told from its marked words. -/
theorem Quest.countIn_findings {q : Quest Word flavor} (h : c.IsFor q) (d : Defect) :
    d.countIn (q.findings c) = d.count flavor c.casings q.marks := by
  rw [findings, Defect.countIn_append, countIn_sites h, q.leaves_sites, q.main_sites, q.state_sites]
  have hkeywords : keywordsOf (q.marks.map Prod.snd) = keywords q.leaves := keywordsOf_marks q.leaves
  have hmissing : d.countIn (if q.mains = [] then c.checkMainExists.findings else []) =
      if d = .missingMain ∧ keywords q.leaves ≠ [] ∧ .main ∉ keywords q.leaves then 1 else 0 := by
    simp only [ne_eq, q.keywords_eq_nil_iff, ← q.mains_eq_nil_iff]
    by_cases hmains : q.mains = []
    · rw [if_pos hmains, countIn_checkMainExists h hmains]
      simp [hmains]
    · simp [hmains, Defect.countIn]
  have hmarks : ∀ p : Mark → Bool, q.leaves.countP (fun l => p l.mark) = q.marks.countP p := by
    intro p
    rw [marks, List.countP_map]
    rfl
  rw [hmissing, hmarks fun m => d.isAt flavor c.casings _ m, ← q.stateNames_marks]
  cases d with
  | duplicateMain =>
    have hmain := sum_marked_seen q.mains
    rw [← q.count_main] at hmain
    simp [Defect.isAt, Defect.inMain, Defect.inState, Defect.count, hkeywords, hmain]
  | duplicateAttribute =>
    simp [Defect.isAt, Defect.inMain, Defect.inState, Defect.count, hkeywords, q.sum_repeated]
  | duplicateDescription =>
    simp [Defect.isAt, Defect.inMain, Defect.inState, Defect.count, hkeywords, q.sum_descriptions]
  | missingMain =>
    simp [Defect.isAt, Defect.inMain, Defect.inState, Defect.count, hkeywords]
  | _ => simp [Defect.isAt, Defect.inMain, Defect.inState, Defect.count]

end Ast

end QuestScript
