import QuestScript.Proofs.Check.Invocation

/-! # What is found at each site

What the walk finds at a site of a quest (`Site.findings`), and that the checks at the place of a
token, of a condition and of a block find just that. -/

namespace QuestScript

open Ast

namespace Checker
variable (c : Checker)

/-! ### References -/

/-- The finding for a name of something that does not exist, in a block that ends at `stop`. -/
def unresolvedFinding (kind : SymbolKind) (name : Token) (stop : Position) : Finding :=
  let suggestion := suggest name.text (c.catalog.names kind)
  let respellings := (suggestion.map fun other =>
    respell s!"Change spelling to '{other}'" other name.span).toList
  let declarations :=
    if kind = .state then [declareState name.text stop respellings.isEmpty] else []
  ⟨name.span, .unresolved kind name.text suggestion, respellings ++ declarations⟩

/-- What is found at a name that is declared in a certain spelling. -/
def casingFindings (name : Token) (declared : String) : List Finding :=
  if name.text = declared then []
  else [⟨name.span, .referenceCasing declared,
    [respell s!"Change casing to '{declared}'" declared name.span]⟩]

/-- What is found at a name that refers to a symbol of the kind, with its arguments if it takes any,
in a block that ends at `stop`. -/
def referenceFindings (kind : SymbolKind) (name : Token) (arguments : Option (ArgumentList Word))
    (stop : Position) : List Finding :=
  match c.catalog.lookup? kind name.text with
  | none => [c.unresolvedFinding kind name stop]
  | some symbol =>
    (match symbol.builtin?, arguments with
      | some b, some x => invocationFindings b name x
      | _, _ => []) ++ casingFindings name symbol.name

/-! ### Blocks -/

/-- The attributes whose keyword occurs before. -/
def repeated : (seen : List Keyword) → List (Attribute Word) → List (Attribute Word)
  | _, [] => []
  | seen, x :: xs =>
    if x.keyword ∈ seen then x :: repeated seen xs else repeated (x.keyword :: seen) xs

/-- The finding for a repeated attribute. -/
def attributeFinding (x : Attribute Word) : Finding :=
  .fixable x.toTree.extent (.duplicateAttribute x.keyword.spelling)
    s!"Remove duplicate '{x.keyword.spelling}' attribute" (.delete x.toTree.extent)

/-- What is found at a main block. -/
def mainFindings (seen : Bool) (x : MainBlock Word) : List Finding :=
  (if seen then [.fixable x.keyword.1.span .duplicateMain "Remove duplicate 'main' block"
    (.delete x.toTree.extent)] else []) ++ (repeated [] x.attributes).map attributeFinding

variable {flavor : Flavor}

/-- What is found at the name of a state. -/
def stateNameFindings (name : Token) : List Finding :=
  match c.catalog.statesNamed name.text with
  | first :: _ :: _ =>
    if first.declaration = name then [] else [.plain name.span (.duplicateState name.text)]
  | _ => []

/-- The finding for a repeated description. -/
def descriptionFinding (x : Statement Word flavor) : Finding :=
  .fixable x.inner.extent .duplicateDescription "Remove duplicate 'desc'" (.delete x.inner.extent)

/-- What is found at a state. -/
def stateFindings (x : StateBlock Word flavor) : List Finding :=
  c.stateNameFindings x.name.1 ++
    ((x.statements.filter (·.isDescription)).drop 1).map descriptionFinding

end Checker

/-- What is found at a site. -/
def Ast.Site.findings {flavor : Flavor} (c : Checker) : Site flavor → List Finding
  | word l => c.keywordFindings l.token
  | reference kind name arguments stop => c.referenceFindings kind name.1 arguments stop
  | gotoCondition x => [.plain x.inner.extent .gotoNotAllowed]
  | main seen x => Checker.mainFindings seen x
  | state x => c.stateFindings x

/-! ### The places of references -/

namespace Checker
variable {c : Checker} {name : Token} {path : List Frame} {kind : SymbolKind} {stop : Position}

/-- A block around the place ends at `stop`. -/
def EndsAt (c : Checker) (p : Place) (stop : Position) : Prop :=
  ∃ block start, p.ancestor? .stateBlock = some block ∧
    c.parse.spanOf block.focus = .ok ⟨start, stop⟩

theorem unresolved_eq (hname : c.Knows name)
    (hstop : kind = .state → c.EndsAt ⟨.token name, path⟩ stop) :
    c.unresolved ⟨.token name, path⟩ kind name.text =
      ⟨[c.unresolvedFinding kind name stop], none⟩ := by
  unfold unresolved unresolvedFinding
  rw [hname.spanOf]
  by_cases hkind : kind = .state
  · obtain ⟨block, start, hblock, hspan⟩ := hstop hkind
    simp only [if_pos hkind, hblock, hspan]
    rfl
  · simp only [if_neg hkind]
    rfl

theorem checkCasing_eq (hname : c.Knows name) (declared : String) :
    c.checkCasing ⟨.token name, path⟩ name.text declared =
      ⟨casingFindings name declared, none⟩ := by
  unfold checkCasing casingFindings
  rw [hname.spanOf]
  split <;> rfl

theorem keywordFindings_of_identifier (h : name.kind = .identifier) :
    c.keywordFindings name = [] := by
  rw [keywordFindings, h]
  rfl

theorem lookup_state_builtin {symbol : Symbol} {text : String}
    (h : c.catalog.lookup? .state text = some symbol) : symbol.builtin? = none := by
  obtain ⟨s, -, rfl⟩ := Option.map_eq_some_iff.mp h
  rfl

/-- The place of a name with arguments. -/
theorem checkPlace_callee {x : ArgumentList Word} (hname : c.Knows name)
    (hkind : name.kind = .identifier)
    (hclass : classify c.parse.flavor ⟨.token name, path⟩ = some kind) (hstate : kind ≠ .state)
    (hnext : (⟨.token name, path⟩ : Place).next? =
      some (x.toTree (Grammar.argumentKind c.parse.flavor)))
    (hx : ∀ u ∈ x.leaves.map Leaf.token, c.Knows u) (seen : Bool) :
    c.checkPlace seen ⟨.token name, path⟩ =
      ⟨c.referenceFindings kind name (some x) stop, none⟩ := by
  have hunresolved : c.unresolved ⟨.token name, path⟩ kind name.text =
      ⟨[c.unresolvedFinding kind name stop], none⟩ :=
    unresolved_eq hname fun h => absurd h hstate
  simp only [checkPlace, checkReference, hclass, checkKeyword_eq hname,
    keywordFindings_of_identifier hkind, referenceFindings]
  cases c.catalog.lookup? kind name.text with
  | none =>
    rw [hunresolved]
    rfl
  | some symbol =>
    cases hbuiltin : symbol.builtin? with
    | none =>
      simp only [hbuiltin, checkCasing_eq hname, Report.nothing, Report.andThen_found,
        List.append_nil]
    | some b =>
      simp only [hbuiltin, invocation_check rfl hnext hname hx, checkCasing_eq hname,
        Report.andThen_found, List.append_nil]

/-- The place of the name of a state that a statement leads to. -/
theorem checkPlace_target (hname : c.Knows name) (hkind : name.kind = .identifier)
    (hclass : classify c.parse.flavor ⟨.token name, path⟩ = some .state)
    (hstop : c.EndsAt ⟨.token name, path⟩ stop) (seen : Bool) :
    c.checkPlace seen ⟨.token name, path⟩ =
      ⟨c.referenceFindings .state name none stop, none⟩ := by
  have hunresolved : c.unresolved ⟨.token name, path⟩ .state name.text =
      ⟨[c.unresolvedFinding .state name stop], none⟩ :=
    unresolved_eq hname fun _ => hstop
  simp only [checkPlace, checkReference, hclass, checkKeyword_eq hname,
    keywordFindings_of_identifier hkind, referenceFindings]
  cases hlookup : c.catalog.lookup? .state name.text with
  | none =>
    rw [hunresolved]
    rfl
  | some symbol =>
    simp only [lookup_state_builtin hlookup, checkCasing_eq hname, Report.nothing,
      Report.andThen_found, List.append_nil]

end Checker

end QuestScript
