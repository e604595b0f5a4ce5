import QuestScript.Proofs.Check.Inversion
import QuestScript.Proofs.Check.Map
import QuestScript.Proofs.Exact

/-! # The check of arguments is exact

In a document without syntax errors the findings about arguments are those at its invocations of built-ins,
one invocation after the other (`Parse.filter_isArgument_findings`), and nothing else says anything about
arguments. What is found at an invocation is told by the number and the types of its literals
(`Checker.argumentsFound_argumentFindings`): one finding if there are too few or too many, else one for each
literal whose type is not that of its parameter. -/

namespace QuestScript

open Ast

/-- The problem is one of the arguments of an invocation. -/
def Problem.isArgument : Problem → Bool
  | argumentCount _ _ _ | argumentType _ _ => true
  | _ => false

theorem Problem.severity_of_isArgument {p : Problem} (h : p.isArgument = true) : p.severity = .error := by
  cases p with
  | argumentCount required total count => rfl
  | argumentType argument parameter => rfl
  | _ => cases h

/-- **What is to be found about the arguments of an invocation** of a built-in. -/
structure Ast.Invocation.ArgumentsFound (b : Builtin) (x : Invocation Word) (found : List Finding) :
    Prop where
  /-- Too few arguments: from the name to the closing parenthesis. -/
  tooFew : x.arguments.literals.length < b.requiredCount →
    found = [.plain ⟨x.callee.1.span.start, x.arguments.closing.1.span.stop⟩
      (.argumentCount b.requiredCount b.parameters.length x.arguments.literals.length)]
  /-- Too many arguments: from the first without a parameter to the last. -/
  tooMany : b.parameters.length < x.arguments.literals.length →
    ∃ first last, x.arguments.literals[b.parameters.length]? = some first ∧
      x.arguments.literals.getLast? = some last ∧
      found = [.plain ⟨first.token.span.start, last.token.span.stop⟩
        (.argumentCount b.requiredCount b.parameters.length x.arguments.literals.length)]
  /-- The right number of arguments: each argument whose type is not that of its parameter. -/
  fitting : b.requiredCount ≤ x.arguments.literals.length →
    x.arguments.literals.length ≤ b.parameters.length →
    found = (x.arguments.literals.zip b.parameters).filterMap fun (l, parameter) =>
      if l.type = parameter.type then none
      else some (.plain l.token.span (.argumentType l.type parameter.type))

theorem Builtin.requiredCount_le (b : Builtin) : b.requiredCount ≤ b.parameters.length :=
  (List.takeWhile_sublist _).length_le

namespace Checker

/-! ### An invocation -/

theorem argumentsFound_argumentFindings (b : Builtin) (x : Invocation Word) :
    x.ArgumentsFound b (argumentFindings b x.callee.1 x.arguments) := by
  have hrequired := b.requiredCount_le
  refine ⟨fun hfew => if_pos hfew, fun hmany => ?_, fun henough hfits => ?_⟩
  · obtain ⟨first, more, hdrop⟩ := List.exists_cons_of_length_pos
      (show 0 < (x.arguments.literals.drop b.parameters.length).length by
        rw [List.length_drop]
        omega)
    have hfirst : x.arguments.literals[b.parameters.length]? = some first := by
      rw [← List.head?_drop, hdrop]
      rfl
    have hlast : x.arguments.literals.getLast? = some ((first :: more).getLast (by simp)) := by
      rw [← List.getLast?_eq_some_getLast, ← hdrop, List.getLast?_drop, if_neg (by omega)]
    refine ⟨_, _, hfirst, hlast, ?_⟩
    unfold argumentFindings
    rw [if_neg (by omega)]
    simp only [hdrop]
  · have hdrop : x.arguments.literals.drop b.parameters.length = [] := List.drop_eq_nil_iff.mpr hfits
    unfold argumentFindings
    rw [if_neg (Nat.not_lt.mpr henough)]
    simp only [hdrop]
    rw [List.filterMap_eq_flatMap_toList]
    refine List.flatMap_congr fun p _ => ?_
    split <;> rfl

theorem isArgument_of_mem_argumentFindings {b : Builtin} {name : Token} {x : ArgumentList Word}
    {f : Finding} (h : f ∈ argumentFindings b name x) : f.problem.isArgument = true := by
  unfold argumentFindings at h
  split at h
  · rw [List.mem_singleton.mp h]
    rfl
  · split at h
    · rw [List.mem_singleton.mp h]
      rfl
    · obtain ⟨p, -, h⟩ := List.mem_flatMap.mp h
      dsimp only at h
      split at h
      · cases h
      · rw [List.mem_singleton.mp h]
        rfl

/-! ### Sites -/

/-- What is found about the arguments of an invocation, if its name is one of a built-in. -/
def invokedFindings (c : Checker) (x : SymbolKind × Invocation Word) : List Finding :=
  match c.catalog.lookup? x.1 x.2.callee.1.text with
  | some (.builtin b) => argumentFindings b x.2.callee.1 x.2.arguments
  | _ => []

variable {c : Checker} {flavor : Flavor} {f : Finding}

theorem isArgument_of_mem_keywordFindings {t : Token} (h : f ∈ c.keywordFindings t) :
    f.problem.isArgument = false := by
  unfold keywordFindings at h
  split at h
  · cases h
  · rw [List.mem_singleton.mp h]
    rfl

theorem isArgument_of_mem_casingFindings {name : Token} {declared : String}
    (h : f ∈ casingFindings name declared) : f.problem.isArgument = false := by
  unfold casingFindings at h
  split at h
  · cases h
  · rw [List.mem_singleton.mp h]
    rfl

theorem isArgument_of_mem_mainFindings {seen : Bool} {x : MainBlock Word}
    (h : f ∈ mainFindings seen x) : f.problem.isArgument = false := by
  rw [mainFindings, List.mem_append] at h
  rcases h with h | h
  · split at h
    · rw [List.mem_singleton.mp h]
      rfl
    · cases h
  · obtain ⟨y, -, rfl⟩ := List.mem_map.mp h
    rfl

theorem isArgument_of_mem_stateFindings {x : StateBlock Word flavor}
    (h : f ∈ c.stateFindings x) : f.problem.isArgument = false := by
  rw [stateFindings, List.mem_append] at h
  rcases h with h | h
  · unfold stateNameFindings at h
    split at h
    · split at h
      · cases h
      · rw [List.mem_singleton.mp h]
        rfl
    · cases h
  · obtain ⟨y, -, rfl⟩ := List.mem_map.mp h
    rfl

theorem filter_isArgument_eq_nil {fs : List Finding} (h : ∀ f ∈ fs, f.problem.isArgument = false) :
    fs.filter (·.problem.isArgument) = [] :=
  List.filter_eq_nil_iff.mpr fun f hf => by simp [h f hf]

/-- At the name of a built-in, only the check of its arguments speaks of them. -/
theorem filter_isArgument_invocationFindings (b : Builtin) (name : Token) (x : ArgumentList Word) :
    (invocationFindings b name x).filter (·.problem.isArgument) = argumentFindings b name x := by
  have hpreference : ∀ f ∈ (if b.name = "SetState" then [Finding.plain name.span .gotoPreferred] else []),
      f.problem.isArgument = false := by
    intro f hf
    split at hf
    · rw [List.mem_singleton.mp hf]
      rfl
    · cases hf
  rw [invocationFindings, List.filter_append, filter_isArgument_eq_nil hpreference, List.nil_append]
  exact List.filter_eq_self.mpr fun f hf => isArgument_of_mem_argumentFindings hf

/-- **What a site says about arguments** is what is found at the invocation there, if there is one. -/
theorem filter_isArgument_site (s : Site flavor) :
    (s.findings c).filter (·.problem.isArgument) =
      s.invocation?.toList.flatMap c.invokedFindings := by
  cases s with
  | word l => exact filter_isArgument_eq_nil fun f hf => isArgument_of_mem_keywordFindings hf
  | gotoCondition x => rfl
  | main seen x => exact filter_isArgument_eq_nil fun f hf => isArgument_of_mem_mainFindings hf
  | state x => exact filter_isArgument_eq_nil fun f hf => isArgument_of_mem_stateFindings hf
  | reference kind name arguments stop =>
    rw [Site.findings, Site.invocation?]
    cases hlookup : c.catalog.lookup? kind name.1.text with
    | none =>
      have hinvoked : ∀ x, c.invokedFindings (kind, ⟨name, x⟩) = [] := fun x => by
        rw [invokedFindings, hlookup]
      have hunresolved : c.referenceFindings kind name.1 arguments stop =
          [c.unresolvedFinding kind name.1 stop] := by
        rw [referenceFindings, hlookup]
      rw [hunresolved]
      cases arguments with
      | none => rfl
      | some x => simp [hinvoked, unresolvedFinding, Problem.isArgument]
    | some symbol =>
      have hcasing : (casingFindings name.1 symbol.name).filter (·.problem.isArgument) = [] :=
        filter_isArgument_eq_nil fun f hf => isArgument_of_mem_casingFindings hf
      rw [referenceFindings_of_lookup hlookup, List.filter_append, hcasing, List.append_nil]
      cases arguments with
      | none => cases symbol <;> rfl
      | some x =>
        rw [Option.map_some, Option.toList_some, List.flatMap_singleton, invokedFindings, hlookup]
        cases symbol with
        | builtin b => exact filter_isArgument_invocationFindings b name.1 x
        | state s => rfl

end Checker

/-! ### Documents -/

namespace Parse
variable {flavor : Flavor} {source : String} {q : Quest Word flavor}

theorem isArgument_of_mem_syntaxFindings {p : Parse} {f : Finding} (h : f ∈ p.syntaxFindings) :
    f.problem.isArgument = false := by
  have hsyntactic := isSyntactic_of_mem_syntaxFindings h
  revert hsyntactic
  cases f.problem <;> first | exact fun _ => rfl | rintro ⟨⟩

/-- **What is found about arguments in a quest** is what is found at its invocations, in order. -/
theorem filter_isArgument_findings (herrors : (parse flavor source).errors = [])
    (htree : (parse flavor source).tree = q.toTree)
    (htokens : (parse flavor source).stream.significant = q.tokens) (casings : List String) :
    ((parse flavor source).findings casings).filter (·.problem.isArgument) =
      (q.statements.flatMap Statement.invocations).flatMap
        ((parse flavor source).checker casings).invokedFindings := by
  set c := (parse flavor source).checker casings
  have hsyntax : (parse flavor source).syntaxFindings.filter (·.problem.isArgument) = [] :=
    Checker.filter_isArgument_eq_nil fun f hf => isArgument_of_mem_syntaxFindings hf
  have hmain : (if q.mains = [] then c.checkMainExists.findings else []).filter
      (·.problem.isArgument) = [] := by
    refine Checker.filter_isArgument_eq_nil fun f hf => ?_
    split at hf
    · obtain ⟨t, -, rfl⟩ := Checker.of_mem_checkMainExists hf
      rfl
    · cases hf
  rw [findings, check_eq herrors htree htokens, List.filter_append, hsyntax, List.nil_append,
    Quest.findings, List.filter_append, hmain, List.append_nil, List.filter_flatMap,
    ← q.invocation_sites, List.filterMap_eq_flatMap_toList, List.flatMap_assoc]
  exact List.flatMap_congr fun s _ => Checker.filter_isArgument_site s

/-- **Arguments are checked exactly.** A document without syntax errors is a quest, and what is found about
arguments is found at its invocations, in order. Nothing is found at an invocation whose name is not one of a
built-in. If it is, one error tells that there are too few arguments or too many, and from where to where,
or, if their number is right, there is one for each argument whose type is not that of its parameter. -/
theorem argument_findings_exact {flavor : Flavor} {source : String}
    (herrors : (parse flavor source).errors = []) (casings : List String) :
    let p := parse flavor source
    ∃ q : Quest Word flavor, p.tree = q.toTree ∧ p.stream.significant = q.tokens ∧
      ∃ found : SymbolKind × Invocation Word → List Finding,
        (p.findings casings).filter (·.problem.isArgument) =
          (q.statements.flatMap Statement.invocations).flatMap found ∧
        (∀ f ∈ p.findings casings, f.problem.isArgument = true → f.problem.severity = .error) ∧
        ∀ kind x,
          ((Catalog.ofParse p).lookup? kind x.callee.1.text = none → found (kind, x) = []) ∧
          ∀ b, (Catalog.ofParse p).lookup? kind x.callee.1.text = some (.builtin b) →
            x.ArgumentsFound b (found (kind, x)) := by
  intro p
  obtain ⟨q, htree, htokens⟩ := exists_quest herrors
  refine ⟨q, htree, htokens, (p.checker casings).invokedFindings,
    filter_isArgument_findings herrors htree htokens casings,
    fun f _ hf => Problem.severity_of_isArgument hf, fun kind x => ⟨fun hnone => ?_, ?_⟩⟩
  · show Checker.invokedFindings _ _ = []
    rw [Checker.invokedFindings]
    simp only [checker, hnone]
  · intro b hb
    have hinvoked : (p.checker casings).invokedFindings (kind, x) =
        Checker.argumentFindings b x.callee.1 x.arguments := by
      rw [Checker.invokedFindings]
      simp only [checker, hb]
    rw [hinvoked]
    exact Checker.argumentsFound_argumentFindings b x

/-- An action with an optional parameter is given no argument, too many and two of the wrong type. -/
theorem argument_findings_exact_giveItem :
    let source := "state a \x7b action GiveItem(); action GiveItem(1, 2, 3, 4); " ++
      "action GiveItem(\"a\", \"b\"); \x7d"
    let p := parse .official source
    p.errors = [] ∧
      ((p.findings []).filter (·.problem.isArgument)).map
          (fun f => (f.range.start.column, f.range.stop.column, f.problem)) =
        [(17, 27, .argumentCount 1 2 0), (51, 55, .argumentCount 1 2 4),
          (74, 77, .argumentType .string .integer), (79, 82, .argumentType .string .integer)] ∧
      ∃ (q : Quest Word .official) (found : SymbolKind × Invocation Word → List Finding),
        p.tree = q.toTree ∧ ((q.statements.flatMap Statement.invocations).flatMap found).length = 4 ∧
        ∀ kind (x : Invocation Word) b,
          (Catalog.ofParse p).lookup? kind x.callee.1.text = some (.builtin b) →
            x.ArgumentsFound b (found (kind, x)) := by
  intro source p
  have herrors : p.errors = [] := List.isEmpty_iff.mp (by decide +kernel)
  obtain ⟨q, htree, -, found, hfound, -, hchecked⟩ := argument_findings_exact herrors []
  refine ⟨herrors, by decide +kernel, q, found, htree, ?_, fun kind x => (hchecked kind x).2⟩
  rw [← hfound]
  decide +kernel

end Parse

end QuestScript
