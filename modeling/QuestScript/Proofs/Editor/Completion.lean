import QuestScript.Editor.Completion
import QuestScript.Proofs.Caret.Token
import QuestScript.Proofs.Rename.Document

/-! # A name that is written out is offered

Keywords are offered before symbols, and keep these away if one of them agrees with what has been typed. Where
a reference is read no keyword fits but `goto` in front of an EOSERV invocation
(`Completion.tokenKeywords_of_classify`), and no built-in can be written with letters of that word in order
(`Completion.not_isSpelledIn_goto`). So at the end of a name that is found, the symbol found is offered and
nothing but symbols of its kind (`Analysis.completions_at_reference`). -/

namespace QuestScript

/-! ### Look-ups -/

namespace Catalog
variable {catalog : Catalog} {kind : SymbolKind} {name : String} {symbol : Symbol}

theorem symbols_builtin (h : kind ≠ .state) :
    catalog.symbols kind = (Builtin.ofKind catalog.flavor kind).map .builtin := by
  cases kind with
  | rule => rfl
  | action => rfl
  | state => exact absurd rfl h

theorem kind_of_mem_symbols (h : symbol ∈ catalog.symbols kind) : symbol.kind = kind := by
  have hbuiltin : ∀ flavor kind, ∀ b ∈ Builtin.ofKind flavor kind, b.kind = kind := by
    intro flavor kind
    cases flavor <;> cases kind <;> decide
  by_cases hstate : kind = .state
  · subst hstate
    obtain ⟨s, -, rfl⟩ := List.mem_map.mp h
    rfl
  · rw [symbols_builtin hstate] at h
    obtain ⟨b, hb, rfl⟩ := List.mem_map.mp h
    exact hbuiltin catalog.flavor kind b hb

/-- **What a look-up finds** is a symbol of the kind whose name has the same lowercase. -/
theorem of_lookup? (h : catalog.lookup? kind name = some symbol) :
    symbol ∈ catalog.symbols kind ∧ lowercase symbol.name = lowercase name := by
  by_cases hstate : kind = .state
  · subst hstate
    obtain ⟨s, hs, rfl⟩ := Option.map_eq_some_iff.mp h
    obtain ⟨hmem, hname⟩ := List.mem_filter.mp (List.mem_of_mem_head? hs)
    exact ⟨List.mem_map_of_mem hmem, eq_of_beq hname⟩
  · rw [lookup?_builtin hstate] at h
    obtain ⟨b, hb, rfl⟩ := Option.map_eq_some_iff.mp h
    have hmem := List.mem_of_find?_eq_some hb
    have hname := List.find?_some hb
    rw [← lowercase_beq (Builtin.isAscii_name hmem)] at hname
    rw [symbols_builtin hstate]
    exact ⟨List.mem_map_of_mem hmem, eq_of_beq hname⟩

end Catalog

namespace Completion

/-! ### What has been typed -/

theorem isSpelledIn_iff (cs ds : List Char) : isSpelledIn cs ds = true ↔ cs.Sublist ds := by
  fun_induction isSpelledIn cs ds with
  | case1 ds => simp
  | case2 c cs => simp
  | case3 c cs ds ih => rw [ih, List.cons_sublist_cons]
  | case4 c cs d ds hne ih =>
    rw [ih, List.cons_sublist_cons']
    exact ⟨.inl, fun h => h.resolve_right fun h => hne h.1⟩

@[simp] theorem label_ofSymbol (s : Symbol) : (ofSymbol s).label = s.name := by
  cases s <;> rfl

theorem mem_filterBy {α : Type} {order : α → α → Ordering} {score : List Char → List Char → α}
    {typed : String} (htyped : typed.isEmpty = false) {items : List Completion} {item : Completion} :
    item ∈ filterBy order score typed items ↔
      item ∈ items ∧ (lowercase typed).toList.Sublist (lowercase item.label).toList := by
  rw [filterBy, htyped, if_neg Bool.false_ne_true, List.mem_mergeSort, List.mem_filter,
    isSpelledIn_iff]

/-! ### Keywords at a reference -/

/-- No name of a built-in is written with letters of `goto` in order. -/
theorem not_isSpelledIn_goto {flavor : Flavor} {kind : SymbolKind} {b : Builtin}
    (h : b ∈ Builtin.ofKind flavor kind) :
    ¬ (lowercase b.name).toList.Sublist (lowercase Keyword.goto.spelling).toList := by
  have hall : ∀ b ∈ Builtin.ofKind flavor kind,
      isSpelledIn (b.name.toList.map Char.toLower) "goto".toList = false := by
    cases flavor <;> cases kind <;> decide +kernel
  have hgoto : (lowercase Keyword.goto.spelling).toList = "goto".toList := by decide
  rw [toList_lowercase (Builtin.isAscii_name h), hgoto, ← isSpelledIn_iff, hall b h]
  exact Bool.false_ne_true

section Source
variable {flavor : Flavor} {source : String} {p : Place} {kind : SymbolKind}

/-- Behind the word `goto` there is no list of arguments. -/
theorem not_argumentList_of_follows
    (hp : p ∈ (Place.root (QuestScript.parse flavor source).tree).descendants)
    (h : Shape.follows "goto" p = true) : p.previous?.any (·.isNode .argumentList) = false := by
  rw [Shape.follows, Option.any_eq_true] at h
  obtain ⟨u, hu, hsame⟩ := h
  rw [hu, Option.any_some]
  refine Bool.eq_false_iff.mpr fun hlist => ?_
  have hmem := (Place.isIn_of_mem_descendants hp).previous? hu
  rw [Parse.not_sameWord_goto hmem hlist] at hsame
  cases hsame

theorem not_argumentList_of_index
    (hp : p ∈ (Place.root (QuestScript.parse flavor source).tree).descendants)
    (hparent : p.parentKind? = some .rule) (hindex : p.index? = some 1) :
    p.previous?.any (·.isNode .argumentList) = false := by
  cases hu : p.previous? with
  | none => rfl
  | some u =>
    have hspells := (Parse.spells_of_mem flavor source rfl List.mem_cons_self).1
    obtain ⟨w, hw, hfirst⟩ := Place.exists_word_previous? hspells (Place.isIn_of_mem_descendants hp)
      hparent (by simp) hindex hu
    obtain ⟨more, rfl⟩ := exists_cons_of_leader (n := .rule) rfl hw
    have hkind : u.kind = .token (.keyword .rule) := (Option.some.inj hfirst).symm
    rw [Option.any_some, Tree.isNode, hkind]
    rfl

theorem tokenKeywords_eq {k : NodeKind} (hparent : p.parentKind? = some k) (herror : k ≠ .error) :
    tokenKeywords flavor p =
      if p.index? = some 0 ∧ leadingKeywords flavor k ≠ [] then leadingKeywords flavor k
      else if k = .rule ∧ p.previous?.any (·.isNode .argumentList) = true then [.goto] else [] := by
  obtain ⟨before, after, path, hframe⟩ := Place.exists_frame hparent
  have hplace : p.parent? = some ⟨.node k (before.reverse ++ p.focus :: after), path⟩ := by
    rw [hframe]
    rfl
  have hkind : ∀ n, (Tree.node k (before.reverse ++ p.focus :: after)).isNode n = (k == n) := fun n => by
    rw [Bool.eq_iff_iff, Tree.isNode_iff, beq_iff_eq]
    exact ⟨Kind.node.inj, congrArg _⟩
  rw [tokenKeywords, hplace]
  dsimp only
  rw [hkind, hkind, hparent, Option.map_some, Option.getD_some, beq_false_of_ne herror,
    if_neg Bool.false_ne_true]
  by_cases hindex : p.index? = some 0
  · by_cases hleading : leadingKeywords flavor k = [] <;> simp [hindex, hleading]
  · simp [hindex]

/-- **At a reference no keyword fits**, but in an EOSERV quest `goto` does where a rule or an action is
invoked. -/
theorem tokenKeywords_of_classify
    (hp : p ∈ (Place.root (QuestScript.parse flavor source).tree).descendants)
    (h : classify flavor p = some kind) :
    tokenKeywords flavor p = [] ∨ kind ≠ .state ∧ tokenKeywords flavor p = [.goto] := by
  cases flavor with
  | official =>
    left
    rcases exists_parent_official h with ⟨hparent, hindex⟩ | ⟨hparent, hindex⟩
    · have hlist : p.previous?.any (·.isNode .argumentList) = false := by
        rcases hindex with hindex | ⟨-, hfollows⟩
        · exact not_argumentList_of_index hp hparent hindex
        · exact not_argumentList_of_follows hp hfollows
      have hfirst : p.index? ≠ some 0 := by
        rcases hindex with hindex | ⟨hindex, -⟩ <;> rw [hindex] <;> decide
      rw [tokenKeywords_eq hparent (by decide), if_neg fun h => hfirst h.1, hlist]
      simp
    · rw [tokenKeywords_eq hparent (by decide), hindex]
      simp
  | eoserv =>
    rcases exists_parent_eoserv h with ⟨hkind, hparent, hindex⟩ | ⟨hparent, hlast, u, hu⟩
    · refine .inr ⟨hkind, ?_⟩
      rw [tokenKeywords_eq hparent (by decide), if_pos ⟨hindex, by decide⟩]
      rfl
    · left
      have hfirst : p.index? ≠ some 0 := by
        obtain ⟨before, after, path, hframe⟩ := Place.exists_frame hparent
        rw [hframe] at hu ⊢
        exact Place.index?_ne_zero hu
      rw [tokenKeywords_eq hparent (by decide), if_neg fun h => hfirst h.1]
      simp

end Source

end Completion

/-! ### Names -/

namespace Analysis
variable {flavor : Flavor} {source : String} {place : Place} {t : Token} {kind : SymbolKind}
  {symbol : Symbol}

/-- **A name that is written out is offered**, whatever the scores are. Whatever errors a document has, at
the end of a name that refers to a symbol and is found in the catalog the symbol is offered as it is
declared, and all that is offered are symbols of its kind whose names the text spells, in lowercase, with
characters left out. -/
theorem completions_at_reference {α : Type} (order : α → α → Ordering)
    (score : List Char → List Char → α) (hname : (place, t) ∈ (ofSource flavor source).identifiers)
    (hkind : (ofSource flavor source).referenceKind? place = some kind)
    (hfound : (ofSource flavor source).catalog.lookup? kind t.text = some symbol) :
    let items := (ofSource flavor source).completionsBy order score t.span.stop
    symbol.name ∈ items.map (·.label) ∧
      ∀ item ∈ items, ∃ s ∈ (ofSource flavor source).catalog.symbols kind, item = .ofSymbol s ∧
        s.kind = kind ∧ (lowercase t.text).toList.Sublist (lowercase item.label).toList := by
  intro items
  obtain ⟨hplace, htoken, hidentifier⟩ := mem_identifiers.mp hname
  obtain ⟨hsymbol, hlower⟩ := Catalog.of_lookup? hfound
  have hclassify : classify flavor place = some kind := by
    rw [referenceKind?] at hkind
    split at hkind
    · exact hkind
    · cases hkind
  have htyped : t.text.isEmpty = false := by
    have hlength := TokenStream.charLength_pos
      (TokenStream.mem_tokens_of_mem_significant (Parse.mem_significant_of_focus hplace htoken))
    rw [String.isEmpty_eq_false_iff]
    rintro hnil
    rw [Token.charLength, hnil] at hlength
    cases hlength
  -- No keyword agrees with the name, so symbols are offered.
  have hkeywords : Completion.filterBy order score t.text
      ((Completion.tokenKeywords (ofSource flavor source).flavor place).map .ofKeyword) = [] := by
    have hflavor : (ofSource flavor source).flavor = flavor := rfl
    rw [hflavor]
    refine List.eq_nil_iff_forall_not_mem.mpr fun item hitem => ?_
    obtain ⟨hitem, hspelled⟩ := (Completion.mem_filterBy htyped).mp hitem
    obtain ⟨k, hk, rfl⟩ := List.mem_map.mp hitem
    rcases Completion.tokenKeywords_of_classify hplace hclassify with hnil | ⟨hstate, hgoto⟩
    · rw [hnil] at hk
      cases hk
    · rw [hgoto, List.mem_singleton] at hk
      subst hk
      rw [Catalog.symbols_builtin hstate] at hsymbol
      obtain ⟨b, hb, rfl⟩ := List.mem_map.mp hsymbol
      rw [← hlower] at hspelled
      exact Completion.not_isSpelledIn_goto hb hspelled
  have hitems : items = Completion.filterBy order score t.text
      (((ofSource flavor source).catalog.symbols kind).map .ofSymbol) := by
    have hword : t.kind.isWord = true := by rw [hidentifier]; rfl
    show completionsBy (ofSource flavor source) order score t.span.stop = _
    rw [completionsBy, hitAt_stop hplace htoken]
    dsimp only
    rw [Tree.eq_token_of_token? htoken]
    dsimp only
    rw [if_pos hword]
    rw [hkeywords, List.isEmpty_nil, if_pos rfl, symbolCompletions, hkind]
  refine ⟨?_, fun item hitem => ?_⟩
  · refine List.mem_map.mpr ⟨.ofSymbol symbol, ?_, Completion.label_ofSymbol symbol⟩
    rw [hitems, Completion.mem_filterBy htyped, Completion.label_ofSymbol, hlower]
    exact ⟨List.mem_map_of_mem hsymbol, List.Sublist.refl _⟩
  · rw [hitems, Completion.mem_filterBy htyped] at hitem
    obtain ⟨hmem, hspelled⟩ := hitem
    obtain ⟨s, hs, rfl⟩ := List.mem_map.mp hmem
    exact ⟨s, hs, rfl, Catalog.kind_of_mem_symbols hs, hspelled⟩

/-- Where `goto` is tried first and the rest of the statement is missing, the rule `Always` is offered. -/
theorem completions_at_reference_always :
    let a := ofSource .eoserv "state A \x7b if always"
    "Always" ∈ (a.completions ⟨0, 19⟩).map (·.label) := by
  intro a
  have hname : a.identifiers[1]?.map (fun x => (a.referenceKind? x.1, x.2.span.stop,
      (a.catalog.lookup? .rule x.2.text).map Symbol.name)) =
        some (some .rule, ⟨0, 19⟩, some "Always") := by
    decide +kernel
  obtain ⟨⟨place, t⟩, hname, h⟩ := Option.map_eq_some_iff.mp hname
  obtain ⟨hkind, h⟩ := Prod.mk.inj h
  obtain ⟨hstop, hlabel⟩ := Prod.mk.inj h
  obtain ⟨symbol, hfound, hlabel⟩ := Option.map_eq_some_iff.mp hlabel
  rw [← hstop, ← hlabel]
  exact (completions_at_reference _ _ (List.mem_of_getElem? hname) hkind hfound).1

end Analysis

end QuestScript
