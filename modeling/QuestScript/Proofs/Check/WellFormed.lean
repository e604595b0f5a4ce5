import QuestScript.Diagnostic.Document
import QuestScript.Proofs.Ast.Names
import QuestScript.Proofs.Check.Catalog

/-! # A document is clean if it is well-formed

What the language asks of a quest beyond its grammar (`Quest.WellFormed`). Nothing is found in a
quest if and only if it is well-formed (`findings_eq_nil_iff`), so a document has no diagnostic if and
only if it follows the rules of the lexer and the grammar and is a well-formed quest
(`analyze_eq_nil_iff`). -/

namespace QuestScript

open Ast

/-- There are enough arguments and not too many, each of its parameter's type. -/
structure Builtin.Accepts (b : Builtin) (x : ArgumentList Word) : Prop where
  enough : b.requiredCount ≤ x.literals.length
  notTooMany : x.literals.length ≤ b.parameters.length
  types : ∀ p ∈ x.literals.zip b.parameters, p.1.type = p.2.type

/-- **What the language asks of a quest** beyond its grammar. -/
structure Ast.Quest.WellFormed {flavor : Flavor} (casings : List String) (q : Quest Word flavor) :
    Prop where
  /-- There is one main block, if there is anything. -/
  main : q.tokens = [] ∨ q.mains.length = 1
  /-- No main block has an attribute twice. -/
  attributes : ∀ x ∈ q.mains, (x.attributes.map Attribute.keyword).Nodup
  /-- States have different names, whatever the case of their letters. -/
  names : (q.states.map (·.name.1.text)).Pairwise fun a b =>
    Ascii.sameWord a.toList b.toList = false
  /-- No state is described twice. -/
  descriptions : ∀ x ∈ q.states, x.statements.countP (·.isDescription) ≤ 1
  /-- Keywords are in lowercase, unless listed. -/
  keywords : ∀ l ∈ q.leaves, ∀ k, l.kind = .keyword k →
    l.token.text = k.spelling ∨ l.token.text ∈ casings
  /-- Conditions can hold. -/
  conditions : ∀ x ∈ q.statements, x.hasGotoCondition = false
  /-- What is invoked exists, is not better left to `goto` and takes the arguments. -/
  invocations : ∀ x ∈ q.statements, ∀ p ∈ x.invocations,
    ∃ b ∈ Builtin.ofKind flavor p.1, b.name = p.2.callee.1.text ∧ b.name ≠ "SetState" ∧
      b.Accepts p.2.arguments
  /-- States that are led to exist. -/
  targets : ∀ l ∈ q.leaves, l.role = .refers .state → ∃ x ∈ q.states, x.name.1.text = l.token.text

namespace Checker
variable {flavor : Flavor} {c : Checker} {q : Quest Word flavor}

/-! ### Main blocks -/

theorem repeated_eq_nil_iff (seen : List Keyword) (xs : List (Attribute Word)) :
    repeated seen xs = [] ↔
      (xs.map Attribute.keyword).Nodup ∧ ∀ k ∈ xs.map Attribute.keyword, k ∉ seen := by
  induction xs generalizing seen with
  | nil => simp [repeated]
  | cons x xs ih =>
    unfold repeated
    by_cases hmem : x.keyword ∈ seen
    · simp [hmem]
    · rw [if_neg hmem, ih, List.map_cons, List.nodup_cons, List.forall_mem_cons]
      constructor
      · rintro ⟨hnodup, hall⟩
        refine ⟨⟨fun h => hall _ h (by simp), hnodup⟩, hmem, fun k hk hseen => ?_⟩
        exact hall k hk (by simp [hseen])
      · rintro ⟨⟨hnotin, hnodup⟩, -, hall⟩
        refine ⟨hnodup, fun k hk hseen => ?_⟩
        rcases List.mem_cons.mp hseen with rfl | hseen
        · exact hnotin hk
        · exact hall k hk hseen

theorem mainFindings_eq_nil_iff (seen : Bool) (x : MainBlock Word) :
    mainFindings seen x = [] ↔ seen = false ∧ (x.attributes.map Attribute.keyword).Nodup := by
  rw [mainFindings, List.append_eq_nil_iff, List.map_eq_nil_iff, repeated_eq_nil_iff]
  cases seen <;> simp

theorem forall_marked_iff (xs : List (MainBlock Word)) :
    (∀ p ∈ marked false xs, mainFindings p.1 p.2 = []) ↔
      xs.length ≤ 1 ∧ ∀ x ∈ xs, (x.attributes.map Attribute.keyword).Nodup := by
  match xs with
  | [] => simp [marked]
  | [x] => simp [marked, mainFindings_eq_nil_iff]
  | x :: y :: zs => simp [marked, mainFindings_eq_nil_iff]

/-! ### States -/

theorem pairwise_of_stateNameFindings (h : c.IsFor q)
    (hall : ∀ x ∈ q.states, c.stateNameFindings x.name.1 = []) :
    (q.states.map (·.name.1)).Pairwise fun t u => lowercase t.text ≠ lowercase u.text := by
  refine List.pairwise_iff_forall_sublist.mpr fun {t u} hsub heq => ?_
  obtain ⟨x, hx, rfl⟩ := List.mem_map.mp (hsub.subset (by simp : u ∈ [t, u]))
  have hfilter := h.statesNamed x.name.1.text
  have hnodup : ((c.catalog.statesNamed x.name.1.text).map StateSymbol.declaration).Nodup := by
    rw [hfilter]
    exact h.nodup_names.filter _
  have hboth : [t, x.name.1].Sublist
      ((c.catalog.statesNamed x.name.1.text).map StateSymbol.declaration) := by
    rw [hfilter]
    have hsame := hsub.filter fun t => lowercase t.text == lowercase x.name.1.text
    simpa [heq] using hsame
  have hnone := hall x hx
  unfold stateNameFindings at hnone
  rcases hstates : c.catalog.statesNamed x.name.1.text with _ | ⟨first, _ | ⟨second, more⟩⟩
  · rw [hstates] at hboth
    cases hboth
  · rw [hstates] at hboth
    have := hboth.length_le
    simp at this
  · rw [hstates] at hboth hnodup hnone
    by_cases hfirst : first.declaration = x.name.1
    · rw [List.map_cons, hfirst] at hboth hnodup
      refine (List.nodup_cons.mp hnodup).1 ?_
      cases hboth with
      | cons _ hboth => exact hboth.subset (by simp)
      | cons_cons _ hboth => exact hboth.subset (by simp)
    · simp [hfirst] at hnone

theorem stateNameFindings_eq_nil (h : c.IsFor q)
    (hpairwise : (q.states.map (·.name.1)).Pairwise
      fun t u => lowercase t.text ≠ lowercase u.text) (t : Token) : c.stateNameFindings t = [] := by
  unfold stateNameFindings
  rcases hstates : c.catalog.statesNamed t.text with _ | ⟨first, _ | ⟨second, more⟩⟩
  · rfl
  · rfl
  · have hfilter := h.statesNamed t.text
    rw [hstates] at hfilter
    have hsub : [first.declaration, second.declaration].Sublist (q.states.map (·.name.1)) := by
      refine List.Sublist.trans ?_ (List.filter_sublist
        (p := fun u => lowercase u.text == lowercase t.text))
      rw [← hfilter]
      simp
    have hmem : ∀ s ∈ first :: second :: more,
        lowercase s.declaration.text = lowercase t.text := by
      intro s hs
      have hs := List.mem_map_of_mem (f := StateSymbol.declaration) hs
      rw [hfilter] at hs
      simpa using (List.mem_filter.mp hs).2
    refine absurd ?_ (List.pairwise_iff_forall_sublist.mp hpairwise hsub)
    rw [hmem first (by simp), hmem second (by simp)]

theorem stateNames_iff (h : c.IsFor q) :
    (∀ x ∈ q.states, c.stateNameFindings x.name.1 = []) ↔
      (q.states.map (·.name.1)).Pairwise fun t u => lowercase t.text ≠ lowercase u.text :=
  ⟨pairwise_of_stateNameFindings h, fun hpairwise x _ => stateNameFindings_eq_nil h hpairwise x.name.1⟩

theorem stateFindings_eq_nil_iff (x : StateBlock Word flavor) : c.stateFindings x = [] ↔
    c.stateNameFindings x.name.1 = [] ∧ x.statements.countP (·.isDescription) ≤ 1 := by
  rw [stateFindings, List.append_eq_nil_iff, List.map_eq_nil_iff, List.drop_eq_nil_iff,
    List.countP_eq_length_filter]

theorem isWordText_name (h : c.IsFor q) {x : StateBlock Word flavor} (hx : x ∈ q.states) :
    Lexeme.IsWordText x.name.1.text.toList :=
  (h.knows _ (Quest.name_mem_tokens hx)).word (by rw [x.name.2]; rfl)

theorem pairwise_names_iff (h : c.IsFor q) :
    (q.states.map (·.name.1)).Pairwise (fun t u => lowercase t.text ≠ lowercase u.text) ↔
      (q.states.map (·.name.1.text)).Pairwise fun a b =>
        Ascii.sameWord a.toList b.toList = false := by
  rw [List.pairwise_map, List.pairwise_map]
  refine List.Pairwise.iff_of_mem fun {x y} hx hy => ?_
  rw [ne_eq, lowercase_eq_iff (isWordText_name h hx).isAscii (isWordText_name h hy).isAscii,
    Bool.not_eq_true]

/-! ### Words and references -/

theorem keywordFindings_eq_nil_iff {t : Token} {k : Keyword} (h : c.Knows t)
    (hk : t.kind = .keyword k) :
    c.keywordFindings t = [] ↔ t.text = k.spelling ∨ t.text ∈ c.casings := by
  have hkeyword : t.kind.isKeyword = true := by rw [hk]; rfl
  rw [keywordFindings, h.lowercase_text hk, hkeyword]
  by_cases hspelling : t.text = k.spelling
  · simp [hspelling]
  · by_cases hlisted : t.text ∈ c.casings <;> simp [hspelling, hlisted]

theorem keywordFindings_of_not_keyword {t : Token} (h : t.kind.isKeyword = false) :
    c.keywordFindings t = [] := by
  rw [keywordFindings, h]
  rfl

/-- The name is that of a symbol of the kind, in its spelling. -/
def IsDeclared (c : Checker) (kind : SymbolKind) (name : String) : Prop :=
  ∃ symbol, c.catalog.lookup? kind name = some symbol ∧ name = symbol.name

/-- What is invoked, if it is known, takes the arguments. -/
def IsAccepted (c : Checker) (kind : SymbolKind) (x : Invocation Word) : Prop :=
  ∀ b, (c.catalog.lookup? kind x.callee.1.text).bind Symbol.builtin? = some b →
    b.name ≠ "SetState" ∧ b.Accepts x.arguments

theorem casingFindings_eq_nil_iff (name : Token) (declared : String) :
    casingFindings name declared = [] ↔ name.text = declared := by
  unfold casingFindings
  by_cases h : name.text = declared <;> simp [h]

theorem referenceFindings_eq_nil_iff (kind : SymbolKind) (name : Word .identifier)
    (arguments : Option (ArgumentList Word)) (stop : Position) :
    c.referenceFindings kind name.1 arguments stop = [] ↔
      c.IsDeclared kind name.1.text ∧ ∀ x, arguments = some x → c.IsAccepted kind ⟨name, x⟩ := by
  rw [referenceFindings, IsDeclared]
  cases hlookup : c.catalog.lookup? kind name.1.text with
  | none => simp
  | some symbol =>
    rw [List.append_eq_nil_iff, casingFindings_eq_nil_iff, and_comm]
    refine and_congr (by simp) ?_
    cases hbuiltin : symbol.builtin? with
    | none => simp [IsAccepted, hlookup, hbuiltin]
    | some b =>
      cases arguments with
      | none => simp
      | some x =>
        simp only [invocationFindings_eq_nil_iff, Option.some.injEq, forall_eq', IsAccepted, hlookup,
          Option.bind_some, hbuiltin]
        constructor
        · rintro ⟨hname, henough, hmany, htypes⟩
          exact ⟨hname, henough, hmany, htypes⟩
        · rintro ⟨hname, haccepts⟩
          exact ⟨hname, haccepts.enough, haccepts.notTooMany, haccepts.types⟩

/-! ### Sites -/

/-- Nothing is found at a site exactly if nothing is wrong with what the site is at. -/
theorem siteFindings_eq_nil_iff (s : Site flavor) : s.findings c = [] ↔
    (∀ l, s.leaf? = some l → c.keywordFindings l.token = [] ∧
      ∀ kind, l.role = .refers kind → c.IsDeclared kind l.token.text) ∧
    (∀ p, s.invocation? = some p → c.IsAccepted p.1 p.2) ∧
    s.gotoCondition? = none ∧
    (∀ p, s.main? = some p → mainFindings p.1 p.2 = []) ∧
    (∀ x, s.state? = some x → c.stateFindings x = []) := by
  cases s with
  | word l =>
    cases hrole : l.role <;>
      simp [Site.findings, Site.leaf?, Site.invocation?, Site.gotoCondition?, Site.main?,
        Site.state?, hrole, Role.isReference, Leaf.plain, Leaf.token]
  | reference kind name arguments stop =>
    have hkind : name.1.kind.isKeyword = false := by rw [name.2]; rfl
    cases arguments <;>
      simp [Site.findings, Site.leaf?, Site.invocation?, Site.gotoCondition?, Site.main?,
        Site.state?, referenceFindings_eq_nil_iff, keywordFindings_of_not_keyword hkind, Leaf.refers,
        Leaf.token]
  | gotoCondition x => simp [Site.findings, Site.gotoCondition?]
  | main seen x =>
    simp [Site.findings, Site.leaf?, Site.invocation?, Site.gotoCondition?, Site.main?, Site.state?]
  | state x =>
    simp [Site.findings, Site.leaf?, Site.invocation?, Site.gotoCondition?, Site.main?, Site.state?]

theorem forall_filterMap_iff {β γ : Type} {f : β → Option γ} {xs : List β} {P : γ → Prop} :
    (∀ x ∈ xs, ∀ y, f x = some y → P y) ↔ ∀ y ∈ xs.filterMap f, P y := by
  constructor
  · intro h y hy
    obtain ⟨x, hx, hf⟩ := List.mem_filterMap.mp hy
    exact h x hx y hf
  · intro h x hx y hf
    exact h y (List.mem_filterMap.mpr ⟨x, hx, hf⟩)

theorem sites_eq_nil_iff (c : Checker) (q : Quest Word flavor) :
    q.sites.flatMap (Site.findings c) = [] ↔
      (∀ l ∈ q.leaves, c.keywordFindings l.token = [] ∧
        ∀ kind, l.role = .refers kind → c.IsDeclared kind l.token.text) ∧
      (∀ p ∈ q.statements.flatMap Statement.invocations, c.IsAccepted p.1 p.2) ∧
      (∀ x ∈ q.statements, x.hasGotoCondition = false) ∧
      (∀ p ∈ marked false q.mains, mainFindings p.1 p.2 = []) ∧
      (∀ x ∈ q.states, c.stateFindings x = []) := by
  rw [List.flatMap_eq_nil_iff, ← q.leaves_sites, ← q.invocation_sites, ← q.gotoCondition_sites,
    ← q.main_sites, ← q.state_sites, List.filterMap_eq_nil_iff]
  simp only [← forall_filterMap_iff, siteFindings_eq_nil_iff, forall_and]

/-! ### A missing main block -/

/-- The finding for a document without a main block, which starts with `t`. -/
def missingMainFinding (c : Checker) (t : Token) : Finding :=
  ⟨t.span, .missingMain, [⟨"Add a 'main' block",
    [.insert ⟨t.span.start.line, t.span.start.column - c.indentBefore t⟩ "main\n\x7b\n\n\x7d\n\n"],
    false⟩]⟩

theorem checkMainExists_eq (h : c.IsFor q) (hmains : q.mains = []) :
    (q.tokens = [] ∧ c.checkMainExists.findings = []) ∨
    ∃ t ts, q.tokens = t :: ts ∧ t.kind = .keyword .state ∧
      c.checkMainExists.findings = [c.missingMainFinding t] := by
  rw [checkMainExists, TokenStream.firstMeaningful?, h.significant]
  rcases q with ⟨_ | ⟨x, xs⟩⟩
  · exact .inl ⟨rfl, rfl⟩
  · cases x with
    | main x => cases hmains
    | state x =>
      have hhead : (Quest.tokens ⟨.state x :: xs⟩).head? = some x.keyword.1 := rfl
      have hknown : c.Knows x.keyword.1 := h.knows _ (List.mem_of_head? hhead)
      refine .inr ⟨x.keyword.1, _, rfl, x.keyword.2, ?_⟩
      rw [hhead]
      simp only [hknown.lowercase_text x.keyword.2]
      rw [if_neg (by decide)]
      rfl

theorem checkMainExists_eq_nil_iff (h : c.IsFor q) (hmains : q.mains = []) :
    c.checkMainExists.findings = [] ↔ q.tokens = [] := by
  rcases checkMainExists_eq h hmains with ⟨htokens, hfound⟩ | ⟨t, ts, htokens, -, hfound⟩
  · simp [htokens, hfound]
  · simp [htokens, hfound]

end Checker

/-! ### Invocations -/

/-- The kind and the name of the symbol that is invoked at a leaf. -/
def Ast.Leaf.callee? (l : Leaf Word) : Option (SymbolKind × Token) :=
  match l.role with
  | .refers .rule => some (.rule, l.token)
  | .refers .action => some (.action, l.token)
  | _ => none

namespace Ast
variable {flavor : Flavor}

theorem filterMap_callee {ls : List (Leaf Word)} (h : ∀ l ∈ ls, l.role.isReference = false) :
    ls.filterMap Leaf.callee? = [] := by
  refine List.filterMap_eq_nil_iff.mpr fun l hl => ?_
  have hl := h l hl
  unfold Leaf.callee?
  cases hrole : l.role with
  | refers kind => simp [hrole, Role.isReference] at hl
  | _ => rfl

theorem Invocation.callee_leaves {kind : SymbolKind} (hkind : kind ≠ .state) (x : Invocation Word) :
    (x.leaves kind).filterMap Leaf.callee? = [(kind, x.callee.1)] := by
  rw [leaves, List.filterMap_cons, filterMap_callee (isReference_arguments x.arguments)]
  cases kind with
  | state => exact absurd rfl hkind
  | _ => rfl

theorem Expression.callee_leaves {kind : SymbolKind} (hkind : kind ≠ .state) (x : Expression Word) :
    (x.leaves kind).filterMap Leaf.callee? =
      (x.invocation?.map fun x => (kind, x.callee.1)).toList := by
  cases x with
  | invocation x => exact x.callee_leaves hkind
  | goto keyword target => rfl
  | literal x => cases x <;> rfl

theorem Statement.callee_leaves (x : Statement Word flavor) :
    x.leaves.filterMap Leaf.callee? = x.invocations.map fun p => (p.1, p.2.callee.1) := by
  have hclose : ∀ close, (Leaf.close close).filterMap Leaf.callee? = [] := fun close =>
    filterMap_callee (isReference_close close)
  cases x with
  | description keyword text close => cases close <;> rfl
  | rule keyword condition goto target close =>
    simp [leaves, invocations, hclose, Invocation.callee_leaves, List.filterMap_cons, Leaf.callee?,
      Leaf.plain, Leaf.refers]
  | action keyword effect close =>
    simp [leaves, invocations, hclose, Invocation.callee_leaves, List.filterMap_cons, Leaf.callee?,
      Leaf.plain]
  | conditional condition keyword first second close =>
    cases first <;> cases second <;>
      simp [leaves, invocations, hclose, Expression.callee_leaves, List.filterMap_cons,
        Leaf.callee?, Leaf.plain, Expression.invocation?]
  | unconditional u keyword effect close =>
    cases effect <;>
      simp [leaves, invocations, hclose, Expression.callee_leaves, List.filterMap_cons,
        Leaf.callee?, Leaf.plain, Expression.invocation?]

theorem Quest.callee_leaves (q : Quest Word flavor) : q.leaves.filterMap Leaf.callee? =
    (q.statements.flatMap Statement.invocations).map fun p => (p.1, p.2.callee.1) := by
  rw [leaves, statements, states]
  induction q.blocks with
  | nil => rfl
  | cons x xs ih =>
    rw [List.flatMap_cons, List.filterMap_append, ih]
    cases x with
    | main x =>
      rw [Block.leaves, filterMap_callee (isReference_mainBlock x)]
      rfl
    | state x =>
      have hstatements : (x.statements.flatMap Statement.leaves).filterMap Leaf.callee? =
          (x.statements.flatMap Statement.invocations).map fun p => (p.1, p.2.callee.1) := by
        rw [filterMap_flatMap Statement.callee_leaves, List.map_flatMap]
      rw [List.filterMap_cons, Block.state?]
      simp [Block.leaves, StateBlock.leaves, List.filterMap_cons, Leaf.callee?, Leaf.plain,
        Leaf.declares, hstatements]

end Ast

theorem Ast.Quest.tokens_eq_nil_iff {flavor : Flavor} {q : Quest Word flavor} :
    q.tokens = [] ↔ q.blocks = [] := by
  rcases q with ⟨_ | ⟨x, xs⟩⟩
  · simp [tokens, leaves]
  · cases x <;> simp [tokens, leaves, Block.leaves, MainBlock.leaves, StateBlock.leaves]

namespace Checker
variable {flavor : Flavor} {c : Checker} {q : Quest Word flavor} {kind : SymbolKind}

theorem lookup_of_mem (h : c.catalog.flavor = flavor) (hkind : kind ≠ .state) {b : Builtin}
    (hb : b ∈ Builtin.ofKind flavor kind) :
    c.catalog.lookup? kind b.name = some (.builtin b) := by
  rw [Catalog.lookup?_builtin hkind, h,
    Builtin.find?_eq (Builtin.isAscii_name hb) hb (namesMatch_self b.name), Option.map_some]

/-- **A name is that of a built-in** exactly if there is a built-in of the name. -/
theorem isDeclared_builtin_iff (h : c.catalog.flavor = flavor) (hkind : kind ≠ .state)
    (name : String) :
    c.IsDeclared kind name ↔ ∃ b ∈ Builtin.ofKind flavor kind, b.name = name := by
  constructor
  · rintro ⟨symbol, hlookup, hname⟩
    rw [Catalog.lookup?_builtin hkind, h] at hlookup
    obtain ⟨b, hfind, rfl⟩ := Option.map_eq_some_iff.mp hlookup
    exact ⟨b, List.mem_of_find?_eq_some hfind, hname.symm⟩
  · rintro ⟨b, hb, rfl⟩
    exact ⟨_, lookup_of_mem h hkind hb, rfl⟩

theorem invocation_iff (h : c.catalog.flavor = flavor) (hkind : kind ≠ .state)
    (x : Invocation Word) :
    c.IsDeclared kind x.callee.1.text ∧ c.IsAccepted kind x ↔
      ∃ b ∈ Builtin.ofKind flavor kind, b.name = x.callee.1.text ∧ b.name ≠ "SetState" ∧
        b.Accepts x.arguments := by
  rw [isDeclared_builtin_iff h hkind]
  constructor
  · rintro ⟨⟨b, hb, hname⟩, haccepted⟩
    refine ⟨b, hb, hname, haccepted b ?_⟩
    rw [← hname, lookup_of_mem h hkind hb]
    rfl
  · rintro ⟨b, hb, hname, haccepts⟩
    refine ⟨⟨b, hb, hname⟩, fun a ha => ?_⟩
    rw [← hname, lookup_of_mem h hkind hb] at ha
    obtain rfl : b = a := Option.some.inj ha
    exact haccepts

/-- **A name is that of a state** exactly if there is a state of the name, where names differ by more
than letter case. -/
theorem isDeclared_state_iff (h : c.IsFor q) (hnames : (q.states.map (·.name.1)).Pairwise
    fun t u => lowercase t.text ≠ lowercase u.text) (name : String) :
    c.IsDeclared .state name ↔ ∃ x ∈ q.states, x.name.1.text = name := by
  have hlookup : c.IsDeclared .state name ↔
      (c.catalog.lookup? .state name).map Symbol.name = some name := by
    rw [IsDeclared, Option.map_eq_some_iff]
    exact exists_congr fun symbol => and_congr_right fun _ => eq_comm
  rw [hlookup, h.lookup_state, Option.map_eq_some_iff]
  constructor
  · rintro ⟨t, hfind, hname⟩
    obtain ⟨x, hx, rfl⟩ := List.mem_map.mp (List.mem_of_find?_eq_some hfind)
    exact ⟨x, hx, hname⟩
  · rintro ⟨x, hx, hname⟩
    have hnodup : ((q.states.map (·.name.1)).map fun t => lowercase t.text).Nodup :=
      List.pairwise_map.mpr hnames
    have hmem : x.name.1 ∈ q.states.map (·.name.1) := List.mem_map_of_mem hx
    refine ⟨x.name.1, ?_, hname⟩
    cases hfind : (q.states.map (·.name.1)).find? fun t => lowercase t.text == lowercase name with
    | none =>
      have := List.find?_eq_none.mp hfind _ hmem
      simp [hname] at this
    | some t =>
      have hsame : lowercase t.text = lowercase x.name.1.text := by
        rw [hname]
        simpa using List.find?_some hfind
      rw [List.inj_on_of_nodup_map hnodup (List.mem_of_find?_eq_some hfind) hmem hsame]

theorem forall_callee_iff (c : Checker) (q : Quest Word flavor) :
    (∀ l ∈ q.leaves, ∀ kind, l.role = .refers kind → c.IsDeclared kind l.token.text) ↔
      (∀ l ∈ q.leaves, l.role = .refers .state → c.IsDeclared .state l.token.text) ∧
      (∀ p ∈ q.statements.flatMap Statement.invocations, c.IsDeclared p.1 p.2.callee.1.text) := by
  have hcallee : (∀ p ∈ q.statements.flatMap Statement.invocations,
      c.IsDeclared p.1 p.2.callee.1.text) ↔
      ∀ l ∈ q.leaves, ∀ y, l.callee? = some y → c.IsDeclared y.1 y.2.text := by
    rw [forall_filterMap_iff, q.callee_leaves, List.forall_mem_map]
  rw [hcallee]
  constructor
  · intro h
    refine ⟨fun l hl hrole => h l hl _ hrole, fun l hl y hy => ?_⟩
    unfold Leaf.callee? at hy
    split at hy
    · rename_i hrole
      obtain rfl := Option.some.inj hy
      exact h l hl _ hrole
    · rename_i hrole
      obtain rfl := Option.some.inj hy
      exact h l hl _ hrole
    · cases hy
  · rintro ⟨hstates, hcallees⟩ l hl kind hrole
    cases kind with
    | state => exact hstates l hl hrole
    | rule => exact hcallees l hl (.rule, l.token) (by rw [Leaf.callee?, hrole])
    | action => exact hcallees l hl (.action, l.token) (by rw [Leaf.callee?, hrole])

/-! ### The equivalence -/

theorem invocations_iff (h : c.IsFor q) :
    (∀ p ∈ q.statements.flatMap Statement.invocations,
      c.IsDeclared p.1 p.2.callee.1.text ∧ c.IsAccepted p.1 p.2) ↔
    ∀ x ∈ q.statements, ∀ p ∈ x.invocations, ∃ b ∈ Builtin.ofKind flavor p.1,
      b.name = p.2.callee.1.text ∧ b.name ≠ "SetState" ∧ b.Accepts p.2.arguments := by
  constructor
  · intro hall x hx p hp
    have hmem : p ∈ q.statements.flatMap Statement.invocations := List.mem_flatMap.mpr ⟨x, hx, hp⟩
    exact (invocation_iff h.flavor_eq (Quest.ne_state_of_mem_invocations hmem) p.2).mp (hall p hmem)
  · intro hall p hmem
    obtain ⟨x, hx, hp⟩ := List.mem_flatMap.mp hmem
    exact (invocation_iff h.flavor_eq (Quest.ne_state_of_mem_invocations hmem) p.2).mpr (hall x hx p hp)

theorem keywords_iff (h : c.IsFor q) :
    (∀ l ∈ q.leaves, c.keywordFindings l.token = []) ↔
      ∀ l ∈ q.leaves, ∀ k, l.kind = .keyword k →
        l.token.text = k.spelling ∨ l.token.text ∈ c.casings := by
  refine forall₂_congr fun l hl => ?_
  have hknown : c.Knows l.token := h.knows _ (List.mem_map_of_mem hl)
  constructor
  · intro hnil k hk
    exact (keywordFindings_eq_nil_iff hknown (l.kind_token.trans hk)).mp hnil
  · intro hall
    by_cases hkeyword : l.token.kind.isKeyword = true
    · cases hk : l.token.kind with
      | keyword k =>
        exact (keywordFindings_eq_nil_iff hknown hk).mpr (hall k (l.kind_token.symm.trans hk))
      | _ => simp [hk, TokenKind.isKeyword] at hkeyword
    · exact keywordFindings_of_not_keyword (by simpa using hkeyword)

/-- **Nothing is found in a quest exactly if it is well-formed.** -/
theorem findings_eq_nil_iff (h : c.IsFor q) : q.findings c = [] ↔ q.WellFormed c.casings := by
  have hmissing : (if q.mains = [] then c.checkMainExists.findings else []) = [] ↔
      (q.mains = [] → q.tokens = []) := by
    by_cases hmains : q.mains = []
    · rw [if_pos hmains, checkMainExists_eq_nil_iff h hmains]
      simp [hmains]
    · simp [hmains]
  have hlength : q.tokens = [] → q.mains.length ≤ 1 := by
    intro hnil
    rw [Quest.mains, Quest.tokens_eq_nil_iff.mp hnil]
    exact Nat.zero_le 1
  rw [Quest.findings, List.append_eq_nil_iff, sites_eq_nil_iff, hmissing, forall_marked_iff]
  simp only [forall₂_and, stateFindings_eq_nil_iff]
  rw [stateNames_iff h, keywords_iff h, forall_callee_iff]
  constructor
  · rintro ⟨⟨⟨hkeywords, htargets, hcallees⟩, haccepted, hconditions, ⟨hone, hattributes⟩, hnames,
      hdescriptions⟩, hmain⟩
    refine ⟨?_, hattributes, (pairwise_names_iff h).mp hnames, hdescriptions, hkeywords, hconditions,
      (invocations_iff h).mp fun p hp => ⟨hcallees p hp, haccepted p hp⟩, ?_⟩
    · by_cases hmains : q.mains = []
      · exact .inl (hmain hmains)
      · have := List.length_pos_iff.mpr hmains
        exact .inr (by omega)
    · exact fun l hl hrole => (isDeclared_state_iff h hnames _).mp (htargets l hl hrole)
  · intro hq
    have hnames := (pairwise_names_iff h).mpr hq.names
    have hinvocations := (invocations_iff h).mpr hq.invocations
    refine ⟨⟨⟨hq.keywords, ?_, fun p hp => (hinvocations p hp).1⟩, fun p hp => (hinvocations p hp).2,
      hq.conditions, ⟨?_, hq.attributes⟩, hnames, hq.descriptions⟩, ?_⟩
    · exact fun l hl hrole => (isDeclared_state_iff h hnames _).mpr (hq.targets l hl hrole)
    · rcases hq.main with hnil | hone
      · exact hlength hnil
      · omega
    · intro hmains
      rcases hq.main with hnil | hone
      · exact hnil
      · rw [hmains] at hone
        cases hone

end Checker

namespace Parse

theorem exists_syntaxFinding (flavor : Flavor) (source : String) (e : SyntaxError) :
    ∃ f, (parse flavor source).syntaxFinding? e = some f := by
  have hend : ∃ t, (parse flavor source).stream.get? (parse flavor source).endIndex = some t := by
    have hpos : 0 < (parse flavor source).stream.tokens.length := by
      show 0 < (TokenStream.ofSource flavor source).tokens.length
      rw [TokenStream.tokens_eq_document_append, List.length_append, List.length_singleton]
      omega
    refine ⟨_, List.getElem?_eq_getElem ?_⟩
    rw [endIndex, TokenStream.length]
    omega
  have hshown : ∃ t, (parse flavor source).shownToken? e = some t := by
    unfold shownToken?
    cases e.offending with
    | some t => exact ⟨t, rfl⟩
    | none =>
      cases (parse flavor source).stream.previousSignificant? (parse flavor source).endIndex with
      | some t => exact ⟨t, rfl⟩
      | none => exact hend
  obtain ⟨t, ht⟩ := hshown
  exact ⟨_, by rw [syntaxFinding?, ht]; rfl⟩

theorem syntaxFindings_eq_nil_iff (flavor : Flavor) (source : String) :
    (parse flavor source).syntaxFindings = [] ↔
      (parse flavor source).stream.unknown = [] ∧ (parse flavor source).errors = [] := by
  rw [syntaxFindings, List.map_eq_nil_iff, ← List.length_eq_zero_iff, List.length_mergeSort,
    List.length_eq_zero_iff, List.append_eq_nil_iff, List.map_eq_nil_iff]
  refine and_congr_right fun _ => ?_
  constructor
  · intro h
    refine List.eq_nil_iff_forall_not_mem.mpr fun e he => ?_
    obtain ⟨f, hf⟩ := exists_syntaxFinding flavor source e
    have hnone := List.filterMap_eq_nil_iff.mp h e he
    rw [hf] at hnone
    cases hnone
  · intro h
    rw [h, List.filterMap_nil]

end Parse

/-- **A document is clean exactly if it is well-formed.** There is no diagnostic if and only if the
lexer knows all of the text, the grammar of the flavor derives the kinds of the significant tokens and
these are the tokens of a well-formed quest. -/
theorem analyze_eq_nil_iff (flavor : Flavor) (source : String) (casings : List String) :
    analyze flavor source casings = [] ↔
      (TokenStream.ofSource flavor source).unknown = [] ∧
      Derives flavor (.node .file)
        ((TokenStream.ofSource flavor source).significant.map (·.kind)) ∧
      ∃ q : Quest Word flavor,
        q.tokens = (TokenStream.ofSource flavor source).significant ∧ q.WellFormed casings := by
  rw [analyze, Parse.diagnostics, List.map_eq_nil_iff, Parse.findings, List.append_eq_nil_iff,
    Parse.syntaxFindings_eq_nil_iff, Parse.errors_eq_nil_iff, and_assoc]
  refine and_congr_right fun _ => and_congr_right fun hderives => ?_
  have herrors := (Parse.errors_eq_nil_iff flavor source).mpr hderives
  constructor
  · intro hnil
    obtain ⟨q, htree, htokens⟩ := Parse.exists_quest herrors
    rw [Parse.check_eq herrors htree htokens] at hnil
    exact ⟨q, htokens.symm, (Checker.findings_eq_nil_iff (Parse.isFor htree htokens casings)).mp hnil⟩
  · rintro ⟨q, htokens, hq⟩
    obtain ⟨-, htree⟩ := Parse.eq_of_tokens_eq htokens.symm
    rw [Parse.check_eq herrors htree htokens.symm]
    exact (Checker.findings_eq_nil_iff (Parse.isFor htree htokens.symm casings)).mpr hq

end QuestScript
