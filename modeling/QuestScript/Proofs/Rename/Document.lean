import QuestScript.Editor.Rename
import QuestScript.Proofs.Check.Names
import QuestScript.Proofs.Rename.Reference
import QuestScript.Proofs.Rename.Text

/-! # Renaming keeps the meaning

Renaming a state writes a name in place of names, so the tokens of the document stay of their kinds.
Documents with tokens of the same kinds have the same tree, the same syntax errors and the same
references but for the texts of tokens, and the same tokens name their states. If the new name is none
of the others, two names of states match after the renaming if they did before
(`Analysis.namesMatch_renamed`), and so each reference finds the state that it found before
(`Analysis.rename_preserves`). -/

namespace QuestScript

/-! ### Documents with tokens of the same kinds -/

section Kinds
variable {flavor : Flavor} {source other : String} {f : Token → Token}

theorem exists_keepsKind (h : (parse flavor other).stream.tokens.map (·.kind) =
      (parse flavor source).stream.tokens.map (·.kind)) :
    ∃ f, Token.KeepsKind f ∧ (∀ t, (f t).index = t.index) ∧
      (parse flavor other).stream.tokens = (parse flavor source).stream.tokens.map f := by
  have hlength := congrArg List.length h
  rw [List.length_map, List.length_map] at hlength
  have hindex : (parse flavor source).stream.tokens.map (·.index) =
      (parse flavor other).stream.tokens.map (·.index) := by
    change (TokenStream.ofSource flavor source).tokens.map _ =
      (TokenStream.ofSource flavor other).tokens.map _
    rw [TokenStream.map_index_tokens, TokenStream.map_index_tokens]
    exact congrArg (List.range' 0) hlength.symm
  exact ⟨_, Token.keepsKind_counterpart h.symm, Token.apply_counterpart hindex,
    (Token.map_counterpart (TokenStream.nodup_tokens flavor source) hlength.symm).symm⟩

variable (hf : Token.KeepsKind f)
include hf

theorem TokenStream.significant_map {s s' : TokenStream} (h : s'.tokens = s.tokens.map f) :
    s'.significant = s.significant.map f := by
  have hend : ((!·.isEnd) ∘ f) = (!·.isEnd) := by
    funext t
    rw [Function.comp_apply, Token.isEnd, hf.kind]
    rfl
  rw [significant, document, h, List.filter_map, hend, List.filter_map, Tree.significant_comp hf]
  rfl

variable (htokens : (QuestScript.parse flavor other).stream.tokens =
  (QuestScript.parse flavor source).stream.tokens.map f)
include htokens

/-- **The syntax errors are the same**, at the same tokens. -/
theorem Parse.map_errors_of_kinds (hindex : ∀ t, (f t).index = t.index) :
    (parse flavor other).errors.map
        (fun e => (e.recovery, (parse flavor other).offendingIndex e, e.expected, e.rules)) =
      (parse flavor source).errors.map
        fun e => (e.recovery, (parse flavor source).offendingIndex e, e.expected, e.rules) := by
  have hend : (parse flavor other).endIndex = (parse flavor source).endIndex := by
    rw [endIndex, endIndex, TokenStream.length, TokenStream.length, htokens, List.length_map]
  rw [errors_move hf (TokenStream.significant_map hf htokens), List.map_map]
  refine List.map_congr_left fun e _ => ?_
  rw [Function.comp_apply, offendingIndex, offendingIndex, hend, SyntaxError.move, Option.map_map]
  simp only [Function.comp_def, hindex]

/-- **The same tokens name the states.** -/
theorem Catalog.map_declaration_of_kinds :
    (ofParse (parse flavor other)).states.map (·.declaration) =
      ((ofParse (parse flavor source)).states.map (·.declaration)).map f := by
  have hmove := Tree.isHom_move hf
  rw [ofParse, ofParse, Parse.tree_move hf (TokenStream.significant_map hf htokens), hmove.nodes,
    List.filterMap_map, List.map_filterMap, List.map_map, List.map_filterMap]
  congr 1
  funext t
  rw [Function.comp_apply, hmove.declaration hf, Option.map_map]

namespace Analysis

theorem identifiers_of_kinds : (ofSource flavor other).identifiers =
    (ofSource flavor source).identifiers.map fun x => (x.1.move f, f x.2) := by
  have hplaces : (Place.root (ofSource flavor other).parse.tree).descendants =
      (Place.root (ofSource flavor source).parse.tree).descendants.map (Place.move f) := by
    change (Place.root (QuestScript.parse flavor other).tree).descendants = _
    rw [Parse.tree_move hf (TokenStream.significant_map hf htokens)]
    exact Place.within_move [] _
  rw [identifiers, identifiers, hplaces, List.filterMap_map, List.map_filterMap]
  congr 1
  funext p
  rw [Function.comp_apply, Place.move, Tree.token?_move]
  cases p.focus.token? with
  | none => rfl
  | some t =>
    rw [Option.map_some, Option.filter_some, Option.filter_some, hf.kind]
    split <;> rfl

variable {p : Place} (hp : p ∈ (Place.root (ofSource flavor source).parse.tree).descendants)

omit htokens in
theorem isStateDeclaration_move (p : Place) : isStateDeclaration (p.move f) = isStateDeclaration p := by
  rw [isStateDeclaration, isStateDeclaration, Place.parentKind?_move, Tree.isToken, Place.move,
    Tree.kind_move hf]
  rfl

include hp

theorem referenceKind?_of_kinds :
    (ofSource flavor other).referenceKind? (p.move f) = (ofSource flavor source).referenceKind? p := by
  have hname : (p.move f).focus.isToken .identifier = p.focus.isToken .identifier := by
    rw [Tree.isToken, Place.move, Tree.kind_move hf]
    rfl
  have hclassify := classify_keepsKind hf (TokenStream.significant_map hf htokens) hp
  rw [referenceKind?, referenceKind?, hname]
  exact congrArg (if p.focus.isToken .identifier then · else none) hclassify

theorem isStateName_of_kinds :
    (ofSource flavor other).isStateName (p.move f) = (ofSource flavor source).isStateName p := by
  rw [isStateName, isStateName, isStateDeclaration_move hf, referenceKind?_of_kinds hf htokens hp]

end Analysis

end Kinds

/-! ### Catalogs -/

theorem find?_of_forall₂ {β γ : Type} {R : β → γ → Prop} {p : β → Bool} {q : γ → Bool} {xs : List β}
    {ys : List γ} (h : List.Forall₂ R xs ys) (hpq : ∀ x ∈ xs, ∀ y, R x y → p x = q y) :
    (xs.find? p = none ∧ ys.find? q = none) ∨ ∃ (i : Nat) (x : β) (y : γ), xs[i]? = some x ∧
      xs.find? p = some x ∧ ys[i]? = some y ∧ ys.find? q = some y := by
  induction h with
  | nil => exact .inl ⟨rfl, rfl⟩
  | @cons x y xs ys hxy _ ih =>
    rw [List.forall_mem_cons] at hpq
    have hsame := hpq.1 y hxy
    cases hp : p x with
    | true =>
      rw [hp] at hsame
      exact .inr ⟨0, x, y, rfl, List.find?_cons_of_pos hp, rfl, List.find?_cons_of_pos hsame.symm⟩
    | false =>
      rw [hp] at hsame
      rw [List.find?_cons_of_neg (by simp [hp]), List.find?_cons_of_neg (by simp [← hsame])]
      refine (ih hpq.2).imp id fun ⟨i, x', y', hx, hfind, hy, hfind'⟩ => ?_
      exact ⟨i + 1, x', y', hx, hfind, hy, hfind'⟩

namespace Catalog
variable {c d : Catalog} {f : Token → Token} {name other : String}

/-- In the first catalog the one name finds the state at the index at which the other name finds one in
the second, or neither finds a state. -/
def FindAlike (c d : Catalog) (name other : String) : Prop :=
  (c.lookup? .state name = none ∧ d.lookup? .state other = none) ∨
    ∃ (i : Nat) (s t : StateSymbol), c.states[i]? = some s ∧ c.lookup? .state name = some (.state s) ∧
      d.states[i]? = some t ∧ d.lookup? .state other = some (.state t)

theorem lookup?_state (c : Catalog) (name : String) : c.lookup? .state name =
    (c.states.find? fun s => lowercase s.name == lowercase name).map .state := by
  rw [lookup?, statesNamed, List.head?_filter]

theorem findAlike (hstates : d.states.map (·.declaration) = (c.states.map (·.declaration)).map f)
    (hname : ∀ s ∈ c.states, (lowercase s.name == lowercase name) =
      (lowercase (f s.declaration).text == lowercase other)) : c.FindAlike d name other := by
  have hpairs : List.Forall₂ (fun s t : StateSymbol => f s.declaration = t.declaration)
      c.states d.states := by
    have hall : List.Forall₂ Eq ((c.states.map (·.declaration)).map f)
        (d.states.map (·.declaration)) := hstates ▸ List.forall₂_refl _
    rwa [List.map_map, List.forall₂_map_left_iff, List.forall₂_map_right_iff] at hall
  unfold FindAlike
  rw [lookup?_state, lookup?_state]
  rcases find?_of_forall₂ hpairs fun s hs t hst => (hst ▸ hname s hs :
      _ = (lowercase t.declaration.text == lowercase other)) with ⟨hc, hd⟩ | ⟨i, s, t, hs, hc, ht, hd⟩
  · exact .inl ⟨congrArg _ hc, congrArg _ hd⟩
  · exact .inr ⟨i, s, t, hs, congrArg _ hc, ht, congrArg _ hd⟩

end Catalog

/-! ### Names of states -/

namespace Analysis
variable {a : Analysis} {old t v : Token} {p : Place} {position : Position} {newName : String}

/-- The name of a state that is renamed at a position. -/
def nameAt? (a : Analysis) (position : Position) : Option Token :=
  (a.hitAt position).bind fun hit => (a.renameTarget hit.element).toOption

/-- The token names a state, in its declaration or in a reference. -/
def NamesState (a : Analysis) (t : Token) : Prop := ∃ p, (p, t) ∈ a.identifiers ∧ a.isStateName p = true

/-- The token declares a state. -/
def Declares (a : Analysis) (t : Token) : Prop :=
  ∃ p, (p, t) ∈ a.identifiers ∧ isStateDeclaration p = true

theorem isStateName_of_isStateDeclaration (h : isStateDeclaration p = true) :
    a.isStateName p = true := by
  rw [isStateName, h, Bool.true_or]

theorem isStateName_of_referenceKind? (h : a.referenceKind? p = some .state) :
    a.isStateName p = true := by
  rw [isStateName, h, beq_self_eq_true, Bool.or_true]

theorem Declares.namesState (h : a.Declares t) : a.NamesState t := by
  obtain ⟨p, hp, hdeclares⟩ := h
  exact ⟨p, hp, isStateName_of_isStateDeclaration hdeclares⟩

/-- The names of states that match a name. -/
def namesOf (a : Analysis) (old : Token) : List Token :=
  (a.identifiers.filter fun x => namesMatch x.2.text old.text && a.isStateName x.1).map (·.2)

theorem rename_eq : a.rename position newName =
    (a.nameAt? position).map fun old => (a.namesOf old).map fun t => ⟨t.span, newName⟩ := by
  rw [rename, nameAt?]
  cases a.hitAt position with
  | none => rfl
  | some hit =>
    rw [Option.bind_some]
    cases h : (a.renameTarget hit.element).toOption with
    | none => simp [h]
    | some old => simp [h, namesOf]

theorem mem_namesOf : t ∈ a.namesOf old ↔ a.NamesState t ∧ namesMatch t.text old.text = true := by
  simp only [namesOf, NamesState, List.mem_map, List.mem_filter, Bool.and_eq_true, Prod.exists]
  constructor
  · rintro ⟨p, t, ⟨hmem, hmatch, hname⟩, rfl⟩
    exact ⟨⟨p, hmem, hname⟩, hmatch⟩
  · rintro ⟨⟨p, hmem, hname⟩, hmatch⟩
    exact ⟨p, t, ⟨hmem, hmatch, hname⟩, rfl⟩

theorem mem_identifiers : (p, t) ∈ a.identifiers ↔
    p ∈ (Place.root a.parse.tree).descendants ∧ p.focus.token? = some t ∧ t.kind = .identifier := by
  simp only [identifiers, List.mem_filterMap, Option.map_eq_some_iff, Option.filter_eq_some_iff,
    Prod.mk.injEq, beq_iff_eq]
  constructor
  · rintro ⟨q, hq, u, ⟨hu, hk⟩, rfl, rfl⟩
    exact ⟨hq, hu, hk⟩
  · rintro ⟨hp, ht, hk⟩
    exact ⟨p, hp, t, ⟨ht, hk⟩, rfl, rfl⟩

section Source
variable {flavor : Flavor} {source : String}

theorem declares_declaration {s : StateSymbol} (hs : s ∈ (ofSource flavor source).catalog.states) :
    (ofSource flavor source).Declares s.declaration := by
  obtain ⟨hmem, hkind, hchild, hname⟩ := Catalog.of_mem_states hs
  obtain ⟨q, hq, hfocus, hparent⟩ := Place.exists_child hmem hkind (List.mem_filter.mp hchild).1
  refine ⟨q, mem_identifiers.mpr ⟨hq, by rw [hfocus]; rfl, hname⟩, ?_⟩
  rw [isStateDeclaration, hfocus, Tree.isToken, Tree.kind, hname, hparent]
  rfl

theorem namesOf_sublist : ((ofSource flavor source).namesOf old).Sublist
    (TokenStream.ofSource flavor source).document := by
  have hsub : ((ofSource flavor source).namesOf old).Sublist
      ((ofSource flavor source).identifiers.map (·.2)) := List.filter_sublist.map _
  rw [identifiers_ofSource, ← TokenStream.filter_significant] at hsub
  exact hsub.trans (List.filter_sublist.trans List.filter_sublist)

theorem NamesState.mem_significant (h : (ofSource flavor source).NamesState t) :
    t ∈ (QuestScript.parse flavor source).stream.significant ∧ t.kind = .identifier := by
  obtain ⟨p, hp, -⟩ := h
  have hmem := List.mem_map_of_mem (f := Prod.snd) hp
  rw [identifiers_ofSource, ← TokenStream.filter_significant, List.mem_filter, beq_iff_eq] at hmem
  exact hmem

theorem NamesState.isAscii (h : (ofSource flavor source).NamesState t) : IsAscii t.text.toList := by
  obtain ⟨hmem, hkind⟩ := h.mem_significant
  exact ((TokenStream.isWhole_lexeme hmem).isWordText (by rw [Token.lexeme, hkind]; rfl)).1.isAscii

/-- **No name is captured.** If the new name is none of the others, two names of states match after the
renaming if they did before. -/
theorem namesMatch_renamed {f : Token → Token}
    (htext : ∀ t ∈ (ofSource flavor source).parse.stream.tokens,
      (f t).text = if t ∈ (ofSource flavor source).namesOf old then newName else t.text)
    (hfresh : ∀ t, (ofSource flavor source).NamesState t → namesMatch t.text old.text = false →
      namesMatch newName t.text = false)
    (hv : (ofSource flavor source).NamesState v) (ht : (ofSource flavor source).NamesState t) :
    namesMatch (f v).text (f t).text = namesMatch v.text t.text := by
  have htokens : ∀ u, (ofSource flavor source).NamesState u →
      u ∈ (ofSource flavor source).parse.stream.tokens := fun u hu =>
    TokenStream.mem_tokens_of_mem_document (List.mem_filter.mp hu.mem_significant.1).1
  have hrenamed : ∀ u, (ofSource flavor source).NamesState u →
      (f u).text = if namesMatch u.text old.text = true then newName else u.text := fun u hu => by
    rw [htext u (htokens u hu)]
    simp only [mem_namesOf, hu, true_and]
  rw [hrenamed v hv, hrenamed t ht]
  cases hvold : namesMatch v.text old.text <;> cases htold : namesMatch t.text old.text
  · rfl
  · rw [if_neg (by simp), if_pos rfl, namesMatch_comm, hfresh v hv hvold, namesMatch_comm,
      namesMatch_congr htold, namesMatch_comm, hvold]
  · rw [if_pos rfl, if_neg (by simp), hfresh t ht htold, namesMatch_congr hvold, namesMatch_comm,
      htold]
  · rw [if_pos rfl, if_pos rfl, namesMatch_self, namesMatch_congr hvold, namesMatch_comm, htold]

end Source

/-! ### The theorem -/

/-- **Renaming keeps the meaning.** In a document without unknown text a state is renamed to a name that
no other state has. Then the tokens are what they were but for the text of the names that match the
old one, and so are the syntax errors; the same tokens declare the states and name them, and every
reference to a state finds the state at the index at which it found one before, or none as before. -/
theorem rename_preserves (flavor : Flavor) (source : String) (position : Position) (newName : String)
    {old : Token} {edits : List TextEdit}
    (hknown : (ofSource flavor source).parse.stream.unknown = [])
    (hold : (ofSource flavor source).nameAt? position = some old)
    (hedits : (ofSource flavor source).rename position newName = some edits)
    (hname : Lexeme.ofText flavor newName.toList = [⟨.identifier, newName.toList⟩])
    (hfresh : ∀ t, (ofSource flavor source).NamesState t → namesMatch t.text old.text = false →
      namesMatch newName t.text = false) :
    let a := ofSource flavor source
    let b := ofSource flavor (TextEdit.applyAll source edits)
    b.parse.stream.tokens.map (fun t => (t.kind, t.text)) =
      a.parse.stream.tokens.map (fun t => (t.kind, if t ∈ a.namesOf old then newName else t.text)) ∧
    b.parse.errors.map (fun e => (e.recovery, b.parse.offendingIndex e, e.expected, e.rules)) =
      a.parse.errors.map (fun e => (e.recovery, a.parse.offendingIndex e, e.expected, e.rules)) ∧
    b.catalog.states.map (·.declaration.index) = a.catalog.states.map (·.declaration.index) ∧
    List.Forall₂ (fun x y => y.2.index = x.2.index ∧ b.isStateName y.1 = a.isStateName x.1 ∧
        b.referenceKind? y.1 = a.referenceKind? x.1 ∧
        (a.referenceKind? x.1 = some .state → a.catalog.FindAlike b.catalog x.2.text y.2.text))
      a.identifiers b.identifiers := by
  intro a b
  obtain rfl : (a.namesOf old).map (fun t => ⟨t.span, newName⟩) = edits := by
    rw [rename_eq, hold] at hedits
    exact Option.some.inj hedits
  have hnames : ∀ t ∈ a.namesOf old, t.kind = .identifier := fun t ht =>
    (mem_namesOf.mp ht).1.mem_significant.2
  have htokens : b.parse.stream.tokens.map (fun t => (t.kind, t.text)) =
      a.parse.stream.tokens.map fun t => (t.kind, if t ∈ a.namesOf old then newName else t.text) :=
    TokenStream.tokens_respell hknown hname namesOf_sublist hnames
  refine ⟨htokens, ?_⟩
  have hkinds : b.parse.stream.tokens.map (·.kind) = a.parse.stream.tokens.map (·.kind) := by
    have hfirst := congrArg (List.map Prod.fst) htokens
    rw [List.map_map, List.map_map] at hfirst
    exact hfirst
  obtain ⟨f, hf, hindex, hmap⟩ := exists_keepsKind hkinds
  have htext : ∀ t ∈ a.parse.stream.tokens,
      (f t).text = if t ∈ a.namesOf old then newName else t.text := by
    have hmap : b.parse.stream.tokens = a.parse.stream.tokens.map f := hmap
    rw [hmap, List.map_map] at htokens
    exact fun t ht => congrArg Prod.snd (List.map_inj_left.mp htokens t ht)
  have hascii : ∀ t, a.NamesState t → IsAscii (f t).text.toList := fun t ht => by
    have hmem := TokenStream.mem_tokens_of_mem_document (List.mem_filter.mp ht.mem_significant.1).1
    rw [htext t hmem]
    split
    · exact ((Lexeme.isWhole_of_ofText hname (by simp)).1.isWordText rfl).1.isAscii
    · exact ht.isAscii
  have hstates := Catalog.map_declaration_of_kinds hf hmap
  refine ⟨Parse.map_errors_of_kinds hf hmap hindex, ?_, ?_⟩
  · have hindices := congrArg (List.map (·.index)) hstates
    rw [List.map_map, List.map_map, List.map_map] at hindices
    simp only [Function.comp_def, hindex] at hindices
    exact hindices
  · rw [identifiers_of_kinds hf hmap, List.forall₂_map_right_iff, List.forall₂_same]
    rintro ⟨p, t⟩ hx
    have hp := (mem_identifiers.mp hx).1
    refine ⟨hindex t, isStateName_of_kinds hf hmap hp, referenceKind?_of_kinds hf hmap hp,
      fun hstate => ?_⟩
    have ht : a.NamesState t := ⟨p, hx, by rw [isStateName, hstate]; simp⟩
    refine Catalog.findAlike hstates fun s hs => ?_
    have hs := (declares_declaration hs).namesState
    rw [lowercase_beq (hascii _ hs), namesMatch_renamed htext hfresh hs ht]
    exact lowercase_beq hs.isAscii

/-- A document with an error, in which one state has two declarations. -/
def redeclared : String := "state A \x7b rule X() goto a; \x7d state B \x7b oops \x7d state a \x7b \x7d"

/-- A state with two declarations in different letter case is renamed; the error stays where it is. -/
theorem rename_preserves_redeclared :
    let a := ofSource .official redeclared
    let edits : List TextEdit := [⟨⟨⟨0, 6⟩, ⟨0, 7⟩⟩, "Ccc"⟩, ⟨⟨⟨0, 24⟩, ⟨0, 25⟩⟩, "Ccc"⟩,
      ⟨⟨⟨0, 52⟩, ⟨0, 53⟩⟩, "Ccc"⟩]
    let b := ofSource .official (TextEdit.applyAll redeclared edits)
    a.rename ⟨0, 6⟩ "Ccc" = some edits ∧ a.parse.errors ≠ [] ∧
      b.parse.errors.map (fun e => (e.recovery, b.parse.offendingIndex e, e.expected, e.rules)) =
        a.parse.errors.map (fun e => (e.recovery, a.parse.offendingIndex e, e.expected, e.rules)) ∧
      b.catalog.states.map (·.declaration.index) = a.catalog.states.map (·.declaration.index) := by
  intro a edits b
  have hknown : a.parse.stream.unknown = [] := by decide +kernel
  have hold : a.nameAt? ⟨0, 6⟩ = some ⟨.identifier, "A", 6, 1, 6, 2⟩ := by decide +kernel
  have hedits : a.rename ⟨0, 6⟩ "Ccc" = some edits := by decide +kernel
  have herrors : a.parse.errors ≠ [] := by decide +kernel
  have hfresh : ∀ x ∈ a.identifiers, a.isStateName x.1 = true → namesMatch x.2.text "A" = false →
      namesMatch "Ccc" x.2.text = false := by decide +kernel
  have hpreserves := rename_preserves .official redeclared ⟨0, 6⟩ "Ccc" hknown hold hedits
    (by decide +kernel) fun t ⟨p, hp, hname⟩ hne => hfresh (p, t) hp hname hne
  exact ⟨hedits, herrors, hpreserves.2.1, hpreserves.2.2.1⟩

end Analysis

end QuestScript
