import QuestScript.Proofs.Check.Alike
import QuestScript.Proofs.Lossless
import QuestScript.Proofs.Tree.Significant

/-! # Hidden tokens and the checks

The catalog and the semantic findings of a document are read off the tree of its significant tokens. Its
full tree gives the same: to leave out hidden tokens keeps every span (`Parse.spanOf_image`) and so what is
found at every place (`Checker.IsImage.checkPlace`), and nothing is found at a hidden token. So the states of
the full tree are those of the document but for the hidden tokens in their blocks (`Catalog.ofParse_full`),
and its findings are those of the document, with ranges and fixes (`Parse.check_full`). -/

namespace QuestScript

/-- The document with its hidden tokens in its tree. -/
def Parse.full (p : Parse) : Parse := { p with tree := p.fullTree }

/-! ### Spans -/

section Spans
variable {g : Tree → Tree} {p q : Parse} (h : Tree.IsHom id g) (hstream : q.stream = p.stream)
include h hstream

/-- **Where a tree starts and ends is kept**, as its significant tokens are. -/
theorem Parse.spanOf_image (t : Tree) : q.spanOf (g t) = p.spanOf t := by
  have hlocate : q.locate = p.locate := by
    funext u
    rw [locate, tokenOf?, hstream, locate, tokenOf?]
  rw [spanOf, bounds, h.firstToken?, h.lastToken?, h.kind, hlocate, Option.map_id, id, id, spanOf, bounds]

end Spans

namespace Checker

/-! ### Hidden places -/

variable (c : Checker)

theorem checkPlace_of_isHidden (seen : Bool) {p : Place} (hp : p.focus.isHidden = true) :
    c.checkPlace seen p = .nothing := by
  obtain ⟨t | ⟨k, cs⟩, path⟩ := p
  · have hclassify : classify c.parse.flavor ⟨.token t, path⟩ = none :=
      Option.eq_none_iff_forall_ne_some.mpr fun k hk =>
        Bool.false_ne_true ((isHidden_of_classify hk).symm.trans hp)
    have hkeyword : t.kind.isKeyword = false := by
      cases hk : t.kind with
      | keyword k =>
        rw [Tree.isHidden, Token.isHidden, hk] at hp
        cases hp
      | _ => rfl
    unfold checkPlace checkReference checkKeyword
    dsimp only
    rw [hclassify, hkeyword]
    rfl
  · cases hp

/-- A walk may pass over hidden tokens. -/
theorem checkPlaces_filter (seen : Bool) (ps : List Place) :
    c.checkPlaces seen (ps.filter (!·.focus.isHidden)) = c.checkPlaces seen ps := by
  induction ps generalizing seen with
  | nil => rfl
  | cons p ps ih =>
    cases hp : p.focus.isHidden with
    | false => rw [List.filter_cons_of_pos (by simp [hp]), checkPlaces, checkPlaces, ih]
    | true =>
      have hmain : p.focus.isNode .mainBlock = false := by
        cases hfocus : p.focus with
        | token t => rfl
        | node k cs =>
          rw [hfocus] at hp
          cases hp
      rw [List.filter_cons_of_neg (by simp [hp]), checkPlaces, checkPlace_of_isHidden c seen hp, hmain,
        Bool.or_false, ih]
      rfl

end Checker

/-! ### Documents -/

section Document
variable (flavor : Flavor) (source : String)

/-- **The catalog of the full tree** has the same states, but for hidden tokens in their blocks. -/
theorem Catalog.ofParse_full : ofParse (parse flavor source) =
    (ofParse (parse flavor source).full).map id Tree.withoutHidden := by
  have hstates := Tree.isHom_withoutHidden.states Token.isMove_id (parse flavor source).fullTree
  rw [Parse.withoutHidden_fullTree] at hstates
  rw [ofParse, hstates]
  rfl

theorem Parse.descendants_tree : (Place.root (parse flavor source).tree).descendants =
    ((Place.root (parse flavor source).fullTree).descendants.filter (!·.focus.isHidden)).map
      Place.withoutHidden := by
  have hplaces := Place.within_withoutHidden [] (parse flavor source).fullTree rfl
  rw [withoutHidden_fullTree] at hplaces
  exact hplaces

theorem Parse.isImage_full (casings : List String) :
    Checker.IsImage Eq id Tree.withoutHidden Place.withoutHidden ((parse flavor source).full.checker casings)
      ((parse flavor source).checker casings) where
  isMove := Token.isMove_id
  isHom := Place.isHom_withoutHidden
  flavor := rfl
  casings := rfl
  catalog := Catalog.ofParse_full flavor source
  declaration _ _ _ _ h := h
  spans t _ := .of_eq (spanOf_image Tree.isHom_withoutHidden rfl t).symm
  mainExists := .refl _

/-- **The full tree has the same findings**, with the same ranges and fixes. -/
theorem Parse.check_full (casings : List String) :
    (parse flavor source).full.check casings = (parse flavor source).check casings := by
  have hplaces : ((parse flavor source).checker casings).places =
      ((((parse flavor source).full.checker casings).places).filter (!·.focus.isHidden)).map
        Place.withoutHidden := by
    have herror : ((!·.isError) ∘ Place.withoutHidden) = fun p => !p.isError := by
      funext p
      rw [Function.comp_apply, Place.isError_withoutHidden]
    show (Place.root (parse flavor source).tree).descendants.filter _ =
      (((Place.root (parse flavor source).fullTree).descendants.filter _).filter _).map _
    rw [descendants_tree, List.filter_map, herror, List.filter_filter, List.filter_filter]
    simp only [Bool.and_comm]
  have himage := isImage_full flavor source casings
  rw [check, check, hplaces, ← Checker.checkPlaces_filter]
  refine (himage.checkPlaces false fun p hp => ?_).eq
  exact Place.isIn_of_mem_descendants (List.mem_filter.mp (List.mem_filter.mp hp).1).1

end Document

end QuestScript
