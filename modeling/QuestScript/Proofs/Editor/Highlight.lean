import QuestScript.Editor.Highlight
import QuestScript.Proofs.Ast.Names
import QuestScript.Proofs.Check.FullTree
import QuestScript.Proofs.Editor.Declaration

/-! # Every name is highlighted

In a document without syntax errors every name stands in one position of the quest, and the position
tells what the name refers to and how it is colored: the classification of a name by its place in the
tree, with or without hidden tokens, is that of its position (`Analysis.classify_of_position`), and an
editor colors all names, each once (`Analysis.highlights_complete`). -/

namespace QuestScript

open Ast

namespace Ast

/-- How the names in a position are colored. -/
def NamePosition.color : NamePosition → HighlightKind
  | header | target => .type
  | condition | effect => .method

theorem NamePosition.target?_role (r : NamePosition) : r.role.target? = r.reference? := by
  cases r <;> rfl

namespace Quest
variable {flavor : Flavor} {q : Quest Word flavor} {t : Token} {r s : NamePosition}

theorem eq_of_token_eq (hnodup : q.tokens.Nodup) {l m : Leaf Word} (hl : l ∈ q.leaves)
    (hm : m ∈ q.leaves) (h : l.token = m.token) : l = m :=
  List.inj_on_of_nodup_map hnodup hl hm h

theorem position_unique (hnodup : q.tokens.Nodup) (hr : t ∈ (q.namesAt r).map (·.1))
    (hs : t ∈ (q.namesAt s).map (·.1)) : r = s := by
  obtain ⟨l, hl, hrole, rfl⟩ := mem_namesAt.mp hr
  obtain ⟨m, hm, hother, htoken⟩ := mem_namesAt.mp hs
  obtain rfl := eq_of_token_eq hnodup hm hl htoken
  exact NamePosition.role_injective (hrole.symm.trans hother)

theorem exists_position (ht : t ∈ q.tokens) (hkind : t.kind = .identifier) :
    ∃ r, t ∈ (q.namesAt r).map (·.1) := by
  obtain ⟨l, hl, rfl⟩ := List.mem_map.mp ht
  rw [l.kind_token] at hkind
  obtain ⟨r, hr⟩ := (exists_position_iff hl).mpr hkind
  exact ⟨r, mem_namesAt.mpr ⟨l, hl, hr, rfl⟩⟩

end Quest

end Ast

/-- The color of the token as a name in a position. -/
def Token.highlight (t : Token) (r : NamePosition) : Highlight :=
  ⟨t.line - 1, t.column, t.charLength, r.color, r == .header⟩

theorem forall₂_filterMap {β γ δ : Type} {R : γ → δ → Prop} {f : β → Option γ} {g : β → δ} {xs : List β}
    (h : ∀ x ∈ xs, ∃ y, f x = some y ∧ R y (g x)) : List.Forall₂ R (xs.filterMap f) (xs.map g) := by
  induction xs with
  | nil => exact .nil
  | cons x xs ih =>
    rw [List.forall_mem_cons] at h
    obtain ⟨⟨y, hy, hR⟩, hxs⟩ := h
    rw [List.filterMap_cons_some hy, List.map_cons]
    exact .cons hR (ih hxs)

theorem Place.exists_of_mem_leaves {root : Tree} {t : Token} (h : t ∈ root.leaves) :
    ∃ p ∈ (Place.root root).descendants, p.focus = .token t := by
  rw [← Place.tokens_within [] root] at h
  obtain ⟨p, hp, htoken⟩ := List.mem_filterMap.mp h
  exact ⟨p, hp, Tree.eq_token_of_token? htoken⟩

theorem Parse.mem_leaves_of_mem_significant {flavor : Flavor} {source : String} {root : Tree} {t : Token}
    (hroot : root ∈ [(parse flavor source).tree, (parse flavor source).fullTree])
    (ht : t ∈ (parse flavor source).stream.significant) : t ∈ root.leaves := by
  rcases List.mem_cons.mp hroot with rfl | hroot
  · rw [leaves_tree]
    exact ht
  · rw [List.mem_singleton.mp hroot, leaves_fullTree]
    exact (List.mem_filter.mp ht).1

theorem Parse.withoutHidden_mem_descendants {flavor : Flavor} {source : String} {p : Place}
    (hp : p ∈ (Place.root (parse flavor source).fullTree).descendants)
    (hhidden : p.focus.isHidden = false) :
    p.withoutHidden ∈ (Place.root (parse flavor source).tree).descendants := by
  rw [descendants_tree]
  exact List.mem_map_of_mem (List.mem_filter.mpr ⟨hp, by simp [hhidden]⟩)

namespace Analysis

section Quest
variable {flavor : Flavor} {source : String} {q : Quest Word flavor} {p : Place} {t : Token}
  {r : NamePosition}

theorem referenceKind?_eq_classify (hp : (p, t) ∈ (ofSource flavor source).identifiers) :
    (ofSource flavor source).referenceKind? p = classify flavor p := by
  obtain ⟨-, htoken, hkind⟩ := mem_identifiers.mp hp
  refine if_pos ?_
  rw [Tree.isToken, Tree.kind_of_token? htoken, hkind]
  rfl

variable (htree : (QuestScript.parse flavor source).tree = q.toTree)
  (htokens : (QuestScript.parse flavor source).stream.significant = q.tokens)
include htree htokens

theorem referenceKind?_of_position (hp : (p, t) ∈ (ofSource flavor source).identifiers)
    (hr : t ∈ (q.namesAt r).map (·.1)) :
    (ofSource flavor source).referenceKind? p = r.reference? := by
  have hnodup : q.tokens.Nodup := htokens ▸ TokenStream.nodup_significant flavor source
  have hname : (t, (ofSource flavor source).referenceKind? p) ∈ q.leaves.filterMap Leaf.name? := by
    rw [← names_ofSource htree htokens]
    exact List.mem_map_of_mem hp
  obtain ⟨l, hl, hlname⟩ := List.mem_filterMap.mp hname
  obtain ⟨m, hm, hrole, htoken⟩ := Quest.mem_namesAt.mp hr
  unfold Leaf.name? at hlname
  split at hlname
  · obtain ⟨rfl, htarget⟩ := Prod.mk.inj (Option.some.inj hlname)
    obtain rfl := Quest.eq_of_token_eq hnodup hm hl htoken
    rw [← htarget, hrole, r.target?_role]
  · cases hlname

/-- **The place of a name tells its position**, in the tree and in the full tree. -/
theorem classify_of_position {root : Tree}
    (hroot : root ∈ [(QuestScript.parse flavor source).tree, (QuestScript.parse flavor source).fullTree])
    (hp : p ∈ (Place.root root).descendants) (hfocus : p.focus = .token t)
    (hr : t ∈ (q.namesAt r).map (·.1)) : classify flavor p = r.reference? := by
  have hkind : t.kind = .identifier := by
    obtain ⟨word, -, rfl⟩ := List.mem_map.mp hr
    exact word.2
  have htree_place : ∀ p ∈ (Place.root (QuestScript.parse flavor source).tree).descendants,
      p.focus = .token t → classify flavor p = r.reference? := by
    intro p hp hfocus
    have hmem : (p, t) ∈ (ofSource flavor source).identifiers :=
      mem_identifiers.mpr ⟨hp, by rw [hfocus]; rfl, hkind⟩
    rw [← referenceKind?_eq_classify hmem, referenceKind?_of_position htree htokens hmem hr]
  rcases List.mem_cons.mp hroot with rfl | hroot
  · exact htree_place p hp hfocus
  · rw [List.mem_singleton.mp hroot] at hp
    have hhidden : p.focus.isHidden = false := by
      rw [hfocus, Tree.isHidden, Token.isHidden, hkind]
      rfl
    rw [← classify_withoutHidden]
    refine htree_place _ (Parse.withoutHidden_mem_descendants hp hhidden) ?_
    rw [Place.withoutHidden, hfocus, Tree.withoutHidden]

omit htokens in
/-- The names in the headers of states are those that an editor takes for declarations. -/
theorem isStateDeclaration_iff (hp : (p, t) ∈ (ofSource flavor source).identifiers) :
    isStateDeclaration p = true ↔ t ∈ (q.namesAt .header).map (·.1) := by
  have hdeclared : (q.namesAt .header).map (·.1) =
      ((ofSource flavor source).identifiers.filter fun x => isStateDeclaration x.1).map (·.2) := by
    rw [← map_declaration_states, Quest.namesAt, List.map_map]
    exact (Catalog.states_ofParse htree).symm
  rw [hdeclared]
  constructor
  · intro hdeclares
    exact List.mem_map.mpr ⟨(p, t), List.mem_filter.mpr ⟨hp, hdeclares⟩, rfl⟩
  · intro ht
    obtain ⟨⟨p', t'⟩, hmem, rfl⟩ := List.mem_map.mp ht
    obtain ⟨hp', hdeclares⟩ := List.mem_filter.mp hmem
    have hnodup : ((ofSource flavor source).identifiers.map (·.2)).Nodup := by
      rw [identifiers_ofSource]
      exact (TokenStream.nodup_tokens flavor source).filter _
    obtain ⟨rfl, -⟩ := Prod.mk.inj (List.inj_on_of_nodup_map hnodup hp hp' rfl)
    exact hdeclares

theorem highlight?_of_position (hp : (p, t) ∈ (ofSource flavor source).identifiers)
    (hr : t ∈ (q.namesAt r).map (·.1)) :
    (ofSource flavor source).highlight? p t = some (t.highlight r) := by
  have hnodup : q.tokens.Nodup := htokens ▸ TokenStream.nodup_significant flavor source
  have hheader : isStateDeclaration p = true ↔ r = .header := by
    rw [isStateDeclaration_iff htree hp]
    refine ⟨fun h => Quest.position_unique hnodup hr h, ?_⟩
    rintro rfl
    exact hr
  have hreference := referenceKind?_of_position htree htokens hp hr
  rw [highlight?, hreference]
  by_cases h : r = .header
  · rw [if_pos (hheader.mpr h), h]
    rfl
  · rw [if_neg (mt hheader.mp h)]
    cases r with
    | header => exact absurd rfl h
    | _ => rfl

end Quest

/-- **Every name of a document without syntax errors is highlighted.** The document is a quest, and
each of its names stands in exactly one position of the quest: in the header of a state, where it
refers to nothing, or where a condition invokes a rule, where an effect invokes an action or where `goto`
leads to a state. Its place in the tree, with or without hidden tokens, tells what it refers to. So the
names are all colored, each once and in order. -/
theorem highlights_complete {flavor : Flavor} {source : String}
    (h : (QuestScript.parse flavor source).errors = []) :
    let a := ofSource flavor source
    ∃ q : Quest Word flavor, a.parse.tree = q.toTree ∧ a.parse.stream.significant = q.tokens ∧
      (∀ t ∈ a.parse.stream.tokens, t.kind = .identifier →
        ∃ r, (∀ s, t ∈ (q.namesAt s).map (·.1) ↔ s = r) ∧
          ∀ root ∈ [a.parse.tree, a.parse.fullTree],
            (∃ p ∈ (Place.root root).descendants, p.focus = .token t) ∧
            ∀ p ∈ (Place.root root).descendants, p.focus = .token t →
              classify flavor p = r.reference?) ∧
      List.Forall₂ (fun highlight t => ∃ r, t ∈ (q.namesAt r).map (·.1) ∧ highlight = t.highlight r)
        a.highlights (a.parse.stream.tokens.filter (·.kind == .identifier)) := by
  intro a
  obtain ⟨q, htree, htokens⟩ := Parse.exists_quest h
  have hnodup : q.tokens.Nodup := htokens ▸ TokenStream.nodup_significant flavor source
  have hposition : ∀ t ∈ a.parse.stream.tokens, t.kind = .identifier →
      t ∈ a.parse.stream.significant ∧ ∃ r, t ∈ (q.namesAt r).map (·.1) := by
    intro t ht hkind
    have hname : t ∈ a.parse.stream.tokens.filter (·.kind == .identifier) :=
      List.mem_filter.mpr ⟨ht, by simp [hkind]⟩
    rw [← TokenStream.filter_significant] at hname
    have hmem := (List.mem_filter.mp hname).1
    exact ⟨hmem, Quest.exists_position (htokens ▸ hmem) hkind⟩
  refine ⟨q, htree, htokens, fun t ht hkind => ?_, ?_⟩
  · obtain ⟨hmem, r, hr⟩ := hposition t ht hkind
    refine ⟨r, fun s => ⟨fun hs => Quest.position_unique hnodup hs hr, ?_⟩, fun root hroot => ⟨?_, ?_⟩⟩
    · rintro rfl
      exact hr
    · exact Place.exists_of_mem_leaves (Parse.mem_leaves_of_mem_significant hroot hmem)
    · exact fun p hp hfocus => classify_of_position htree htokens hroot hp hfocus hr
  · have hnames : a.identifiers.map (·.2) = a.parse.stream.tokens.filter (·.kind == .identifier) :=
      identifiers_ofSource flavor source
    rw [← hnames]
    refine forall₂_filterMap fun ⟨p, t⟩ hp => ?_
    have ht : t ∈ a.parse.stream.tokens ∧ t.kind = .identifier := by
      have hmem := List.mem_map_of_mem (f := Prod.snd) hp
      rw [hnames, List.mem_filter, beq_iff_eq] at hmem
      exact hmem
    obtain ⟨-, r, hr⟩ := hposition t ht.1 ht.2
    exact ⟨_, highlight?_of_position htree htokens hp hr, r, hr, rfl⟩

/-- All four positions, with a `goto` in capitals and another as a condition. -/
theorem highlights_complete_goto :
    let source := "state a \x7b if Near() GOTO b if goto a Talk() \x7d state b \x7b \x7d"
    (QuestScript.parse .eoserv source).errors = [] ∧
      (ofSource .eoserv source).highlights.length =
        ((QuestScript.parse .eoserv source).stream.tokens.filter (·.kind == .identifier)).length ∧
      ((ofSource .eoserv source).highlights.map (·.kind)) =
        [.type, .method, .type, .type, .method, .type] := by
  intro source
  have herrors : (QuestScript.parse .eoserv source).errors = [] :=
    List.isEmpty_iff.mp (by decide +kernel)
  obtain ⟨q, -, -, -, hhighlights⟩ := highlights_complete herrors
  exact ⟨herrors, hhighlights.length_eq, by decide +kernel⟩

end Analysis

end QuestScript
