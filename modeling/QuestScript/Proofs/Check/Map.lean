import QuestScript.Proofs.Ast.Map
import QuestScript.Proofs.Check.Catalog
import QuestScript.Proofs.Check.Document

/-! # Findings of a quest with other words

When the words of a quest give way to words that stand where they stood, the sites of the quest stay
what they are but for the words (`Quest.sites_map`). What is found at a site depends on the places of
all its words, but on the text of one word at most: so it stays if that word stays
(`Checker.SameSymbols.findings_map`). -/

namespace QuestScript

open Ast

namespace Ast

/-- Each word gives way to a word at its place. -/
def KeepsPlaces (g : ∀ k, Word k → Word k) : Prop := ∀ k (w : Word k), (g k w).1.span = w.1.span

variable {g : ∀ k, Word k → Word k} {flavor : Flavor}

/-! ### Parts of quests -/

theorem Literal.type_map (x : Literal Word) : (x.map g).type = x.type := by
  cases x <;> rfl

theorem ArgumentList.literals_map (x : ArgumentList Word) :
    (x.map g).literals = x.literals.map (Literal.map g) := by
  obtain ⟨opening, _ | ⟨first, more⟩, closing⟩ := x
  · rfl
  · simp [literals, map, mapInner, mapComma]

theorem Attribute.keyword_map (x : Attribute Word) : (x.map g).keyword = x.keyword := by
  cases x <;> rfl

theorem Statement.isDescription_map (x : Statement Word flavor) :
    (x.map g).isDescription = x.isDescription := by
  cases x <;> rfl

theorem Block.main?_map (x : Block Word flavor) :
    (x.map g).main? = x.main?.map (MainBlock.map g) := by
  cases x <;> rfl

theorem Quest.mains_map (q : Quest Word flavor) : (q.map g).mains = q.mains.map (MainBlock.map g) := by
  rw [mains, map, List.filterMap_map, mains, List.map_filterMap]
  exact congrArg (q.blocks.filterMap ·) (funext Block.main?_map)

theorem Quest.states_map (q : Quest Word flavor) :
    (q.map g).states = q.states.map (StateBlock.map g) := by
  rw [states, map, List.filterMap_map, states, List.map_filterMap]
  refine congrArg (q.blocks.filterMap ·) (funext fun x => ?_)
  cases x <;> rfl

theorem repeated_map (seen : List Keyword) (xs : List (Attribute Word)) :
    Checker.repeated seen (xs.map (Attribute.map g)) =
      (Checker.repeated seen xs).map (Attribute.map g) := by
  induction xs generalizing seen with
  | nil => rfl
  | cons x xs ih =>
    rw [List.map_cons, Checker.repeated, Checker.repeated, x.keyword_map, ih, ih]
    split <;> rfl

/-! ### Sites -/

/-- The site with other words. -/
def Site.map (g : ∀ k, Word k → Word k) : Site flavor → Site flavor
  | word l => .word (l.map g)
  | reference kind name arguments stop =>
    .reference kind (g _ name) (arguments.map (ArgumentList.map g)) stop
  | gotoCondition x => .gotoCondition (x.map g)
  | main seen x => .main seen (x.map g)
  | state x => .state (x.map g)

/-- The token whose text decides what is found at a site. -/
def Site.subject? : Site flavor → Option Token
  | word l => some l.token
  | reference _ name _ _ => some name.1
  | gotoCondition _ | main _ _ => none
  | state x => some x.name.1

theorem wordSites_map (ls : List (Leaf Word)) :
    (wordSites (ls.map (Leaf.map g)) : List (Site flavor)) = (wordSites ls).map (Site.map g) := by
  rw [wordSites, wordSites, List.map_map, List.map_map]
  rfl

theorem Expression.sites_map (stop : Position) (kind : SymbolKind) (isCondition : Bool)
    (x : Expression Word) : ((x.map g).sites stop kind isCondition : List (Site flavor)) =
      (x.sites stop kind isCondition).map (Site.map g) := by
  cases x with
  | invocation x =>
    simp [sites, map, Invocation.map, Site.map, ArgumentList.leaves_map, wordSites_map]
  | goto keyword target => cases isCondition <;> rfl
  | literal x => simp [sites, map, wordSites, Site.map]

theorem Statement.sites_map (stop : Position) (x : Statement Word flavor) :
    (x.map g).sites stop = (x.sites stop).map (Site.map g) := by
  cases x <;>
    simp [sites, map, Invocation.map, Site.map, ArgumentList.leaves_map, Expression.sites_map,
      ← wordSites_map]

section Places
variable (hg : KeepsPlaces g)
include hg

theorem StateBlock.stop_map (x : StateBlock Word flavor) : (x.map g).stop = x.stop :=
  congrArg Span.stop (hg _ x.closing)

theorem StateBlock.sites_map (x : StateBlock Word flavor) :
    (x.map g).sites = x.sites.map (Site.map g) := by
  have hstatements : (x.map g).statements.flatMap (Statement.sites x.stop) =
      (x.statements.flatMap (Statement.sites x.stop)).map (Site.map g) := by
    rw [StateBlock.map, List.flatMap_map, List.map_flatMap]
    exact congrArg (x.statements.flatMap ·) (funext (Statement.sites_map x.stop))
  rw [sites, x.stop_map hg, hstatements, sites, List.map_cons, List.map_append, List.map_append,
    ← wordSites_map, ← wordSites_map]
  rfl

theorem Block.sites_map (seen : Bool) (x : Block Word flavor) :
    (x.map g).sites seen = (x.sites seen).map (Site.map g) := by
  cases x with
  | main x =>
    rw [Block.map, sites, sites, x.leaves_map, wordSites_map]
    rfl
  | state x => exact x.sites_map hg

/-- **The sites of a quest with other words** are its sites with the other words. -/
theorem Quest.sites_map (q : Quest Word flavor) : (q.map g).sites = q.sites.map (Site.map g) := by
  rw [sites, sites, map]
  generalize false = seen
  induction q.blocks generalizing seen with
  | nil => rfl
  | cons x xs ih =>
    have hseen : (x.map g).seenAfter seen = x.seenAfter seen := by
      rw [Block.seenAfter, x.main?_map, Option.isSome_map, Block.seenAfter]
    rw [List.map_cons, sitesFrom, sitesFrom, List.map_append, x.sites_map hg, hseen, ih]

/-! ### Extents -/

omit hg in
theorem extent_congr {t u : Tree} (h : t.leaves.map (·.span) = u.leaves.map (·.span)) :
    t.extent = u.extent := by
  have hfirst : t.leaves.head?.map (·.span.start) = u.leaves.head?.map (·.span.start) := by
    have := congrArg (fun spans => spans.head?.map Span.start) h
    rwa [List.head?_map, List.head?_map, Option.map_map, Option.map_map] at this
  have hlast : t.leaves.getLast?.map (·.span.stop) = u.leaves.getLast?.map (·.span.stop) := by
    have := congrArg (fun spans => spans.getLast?.map Span.stop) h
    rwa [List.getLast?_map, List.getLast?_map, Option.map_map, Option.map_map] at this
  rw [Tree.extent, Tree.extent, hfirst, hlast]

omit hg in
theorem extent_only (k : NodeKind) (t : Tree) : (Tree.node k [t]).extent = t.extent := by
  refine extent_congr ?_
  simp

theorem span_token (l : Leaf Word) : (l.map g).token.span = l.token.span := hg _ l.word

theorem extent_eq {t u : Tree} {ls : List (Leaf Word)}
    (ht : t.leaves = (ls.map (Leaf.map g)).map Leaf.token) (hu : u.leaves = ls.map Leaf.token) :
    t.extent = u.extent := by
  refine extent_congr ?_
  rw [ht, hu, List.map_map, List.map_map, List.map_map]
  exact List.map_congr_left fun l _ => span_token hg l

theorem Literal.span_map (x : Literal Word) : (x.map g).token.span = x.token.span := by
  rw [token, leaf_map]
  exact span_token hg x.leaf

end Places

end Ast

/-! ### Findings -/

namespace Checker

/-- What is found at a name because of what it invokes, if it invokes a built-in. -/
def callFindings (b : Option Builtin) (name : Token) (arguments : Option (ArgumentList Word)) :
    List Finding :=
  match b, arguments with
  | some b, some x => invocationFindings b name x
  | _, _ => []

theorem referenceFindings_of_lookup {c : Checker} {kind : SymbolKind} {name : Token} {symbol : Symbol}
    {arguments : Option (ArgumentList Word)} {stop : Position}
    (h : c.catalog.lookup? kind name.text = some symbol) :
    c.referenceFindings kind name arguments stop =
      callFindings symbol.builtin? name arguments ++ casingFindings name symbol.name := by
  unfold referenceFindings
  rw [h]
  rfl

section Findings
variable {g : ∀ k, Word k → Word k} {flavor : Flavor} (hg : KeepsPlaces g)
include hg

theorem argumentFindings_map (b : Builtin) {name name' : Token} (hname : name'.span = name.span)
    (x : ArgumentList Word) :
    argumentFindings b name' (x.map g) = argumentFindings b name x := by
  have hclosing : (x.map g).closing.1.span = x.closing.1.span := hg _ x.closing
  unfold argumentFindings
  simp only [x.literals_map, List.length_map, ← List.map_drop, hname, hclosing]
  cases x.literals.drop b.parameters.length with
  | nil =>
    simp [List.zip_map_left, List.flatMap_map, Literal.type_map, Literal.span_map hg]
  | cons first more =>
    have hlast := List.getLast_map (f := Literal.map g) (l := first :: more) (by simp)
    simp only [List.map_cons] at hlast ⊢
    rw [hlast, Literal.span_map hg, Literal.span_map hg]

theorem invocationFindings_map (b : Builtin) {name name' : Token} (hname : name'.span = name.span)
    (x : ArgumentList Word) :
    invocationFindings b name' (x.map g) = invocationFindings b name x := by
  rw [invocationFindings, argumentFindings_map hg b hname, hname, invocationFindings]

theorem callFindings_map (b : Option Builtin) {name name' : Token} (hname : name'.span = name.span)
    (arguments : Option (ArgumentList Word)) :
    callFindings b name' (arguments.map (ArgumentList.map g)) = callFindings b name arguments := by
  cases b with
  | none => rfl
  | some b =>
    cases arguments with
    | none => rfl
    | some x => exact invocationFindings_map hg b hname x

theorem attributeFinding_map (x : Attribute Word) : attributeFinding (x.map g) = attributeFinding x := by
  have hextent : (x.map g).toTree.extent = x.toTree.extent :=
    extent_eq hg (by rw [Attribute.leaves_toTree, x.leaves_map]) x.leaves_toTree
  rw [attributeFinding, x.keyword_map, hextent, attributeFinding]

theorem mainFindings_map (seen : Bool) (x : MainBlock Word) :
    mainFindings seen (x.map g) = mainFindings seen x := by
  have hextent : (x.map g).toTree.extent = x.toTree.extent :=
    extent_eq hg (by rw [MainBlock.leaves_toTree, x.leaves_map]) x.leaves_toTree
  have hkeyword : (x.map g).keyword.1.span = x.keyword.1.span := hg _ x.keyword
  have hrepeated : (repeated [] (x.map g).attributes).map attributeFinding =
      (repeated [] x.attributes).map attributeFinding := by
    rw [MainBlock.map, repeated_map, List.map_map]
    exact List.map_congr_left fun y _ => attributeFinding_map hg y
  rw [mainFindings, hextent, hkeyword, hrepeated, mainFindings]

theorem extent_inner_map (x : Statement Word flavor) : (x.map g).inner.extent = x.inner.extent :=
  extent_eq hg (by rw [leaves_inner, x.leaves_map]) (leaves_inner x)

theorem descriptionFindings_map (x : StateBlock Word flavor) :
    (((x.map g).statements.filter (·.isDescription)).drop 1).map descriptionFinding =
      ((x.statements.filter (·.isDescription)).drop 1).map descriptionFinding := by
  have hfilter : (x.map g).statements.filter (·.isDescription) =
      (x.statements.filter (·.isDescription)).map (Statement.map g) := by
    rw [StateBlock.map, List.filter_map]
    exact congrArg (fun p => (x.statements.filter p).map (Statement.map g))
      (funext Statement.isDescription_map)
  rw [hfilter, ← List.map_drop, List.map_map]
  refine List.map_congr_left fun y _ => ?_
  rw [Function.comp_apply, descriptionFinding, extent_inner_map hg, descriptionFinding]

end Findings

/-- The checkers accept the same spellings of keywords and know states declared by the same names. -/
structure SameSymbols (c d : Checker) : Prop where
  casings : d.casings = c.casings
  flavor : d.catalog.flavor = c.catalog.flavor
  declarations : d.catalog.states.map StateSymbol.declaration =
    c.catalog.states.map StateSymbol.declaration

namespace SameSymbols
variable {c d : Checker} (h : SameSymbols c d)
include h

theorem statesNamed (name : String) : (d.catalog.statesNamed name).map StateSymbol.declaration =
    (c.catalog.statesNamed name).map StateSymbol.declaration := by
  have hfilter : ∀ e : Checker, (e.catalog.statesNamed name).map StateSymbol.declaration =
      (e.catalog.states.map StateSymbol.declaration).filter
        fun t => lowercase t.text == lowercase name := by
    intro e
    rw [List.filter_map]
    rfl
  rw [hfilter, h.declarations, hfilter]

theorem names (kind : SymbolKind) : d.catalog.names kind = c.catalog.names kind := by
  by_cases hkind : kind = .state
  · have htexts := congrArg (List.map Token.text) h.declarations
    rw [List.map_map, List.map_map] at htexts
    rw [hkind, Catalog.names_state, Catalog.names_state]
    exact htexts
  · rw [Catalog.names_builtin hkind, Catalog.names_builtin hkind, h.flavor]

theorem lookup (kind : SymbolKind) (name : String) :
    (d.catalog.lookup? kind name).map (fun s => (s.builtin?, s.name)) =
      (c.catalog.lookup? kind name).map fun s => (s.builtin?, s.name) := by
  by_cases hkind : kind = .state
  · have hhead := congrArg (fun ts => ts.head?.map fun t : Token => ((none : Option Builtin), t.text))
      (h.statesNamed name)
    simp only [List.head?_map, Option.map_map] at hhead
    rw [hkind, Catalog.lookup?, Catalog.lookup?, Option.map_map, Option.map_map]
    exact hhead
  · rw [Catalog.lookup?_builtin hkind, Catalog.lookup?_builtin hkind, h.flavor]

theorem keywordFindings (t : Token) : d.keywordFindings t = c.keywordFindings t := by
  rw [Checker.keywordFindings, h.casings, Checker.keywordFindings]

theorem stateNameFindings (t : Token) : d.stateNameFindings t = c.stateNameFindings t := by
  have hstates := h.statesNamed t.text
  unfold Checker.stateNameFindings
  rcases hc : c.catalog.statesNamed t.text with _ | ⟨first, _ | ⟨second, more⟩⟩ <;>
    rcases hd : d.catalog.statesNamed t.text with _ | ⟨first', _ | ⟨second', more'⟩⟩ <;>
    rw [hc, hd] at hstates <;>
    simp only [List.map_cons, List.map_nil, List.cons.injEq, reduceCtorEq, and_false] at hstates ⊢
  rw [hstates.1]

section Map
variable {g : ∀ k, Word k → Word k} {flavor : Flavor} (hg : KeepsPlaces g)
include hg

/-- **What is found at a name that stays.** -/
theorem referenceFindings_map (kind : SymbolKind) (name : Token)
    (arguments : Option (ArgumentList Word)) (stop : Position) :
    d.referenceFindings kind name (arguments.map (ArgumentList.map g)) stop =
      c.referenceFindings kind name arguments stop := by
  have hlookup := h.lookup kind name.text
  cases hc : c.catalog.lookup? kind name.text with
  | none =>
    rw [hc, Option.map_none, Option.map_eq_none_iff] at hlookup
    unfold referenceFindings
    simp only [hc, hlookup, unresolvedFinding, h.names]
  | some symbol =>
    rw [hc, Option.map_some] at hlookup
    obtain ⟨symbol', hd, hsame⟩ := Option.map_eq_some_iff.mp hlookup
    obtain ⟨hbuiltin, hname⟩ := Prod.mk.inj hsame
    rw [referenceFindings_of_lookup hd, referenceFindings_of_lookup hc, hbuiltin, hname,
      callFindings_map hg symbol.builtin? rfl arguments]

theorem stateFindings_map {x : StateBlock Word flavor} (hname : (g _ x.name).1 = x.name.1) :
    d.stateFindings (x.map g) = c.stateFindings x := by
  have hnamed : (x.map g).name.1 = x.name.1 := hname
  rw [stateFindings, hnamed, h.stateNameFindings, descriptionFindings_map hg, stateFindings]

/-- **What is found at a site stays** if its subject does. -/
theorem findings_map (s : Site flavor)
    (hs : ∀ k (w : Word k), s.subject? = some w.1 → (g k w).1 = w.1) :
    (s.map g).findings d = s.findings c := by
  cases s with
  | word l =>
    have htoken : (l.map g).token = l.token := hs l.kind l.word rfl
    rw [Site.map, Site.findings, htoken, h.keywordFindings, Site.findings]
  | reference kind name arguments stop =>
    have hname : (g _ name).1 = name.1 := hs _ name rfl
    rw [Site.map, Site.findings, hname, h.referenceFindings_map hg, Site.findings]
  | gotoCondition x =>
    have hextent : (x.map g).inner.extent = x.inner.extent := by
      have htoTree : (x.map g).toTree.extent = x.toTree.extent :=
        extent_eq hg (by rw [Expression.leaves_toTree .rule, x.leaves_map])
          (x.leaves_toTree .rule)
      rwa [Expression.toTree, Expression.toTree, extent_only, extent_only] at htoTree
    rw [Site.map, Site.findings, hextent, Site.findings]
  | main seen x => exact mainFindings_map hg seen x
  | state x => exact h.stateFindings_map hg (hs _ x.name rfl)

end Map

end SameSymbols

end Checker

end QuestScript
