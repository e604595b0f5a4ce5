import QuestScript.Reference

/-! # Maps of trees that the grammar does not notice

A map of trees is a homomorphism (`Tree.IsHom`) if it keeps kinds and takes the significant children and
tokens of a tree to those of its image. Whatever is asked of a tree but where its tokens stand and which
hidden tokens it has then has the same answer for the image, or the image of the answer if it is made of
trees. Likewise for maps of places (`Place.IsHom`), which keep references (`Place.IsHom.classify`). To
put tokens elsewhere is a homomorphism, and so it is to leave out hidden tokens. -/

namespace QuestScript

/-- The function takes every token to one of its kind. -/
structure Token.KeepsKind (f : Token → Token) : Prop where
  kind (t : Token) : (f t).kind = t.kind

/-- The function puts tokens elsewhere and leaves them as they are. -/
structure Token.IsMove (f : Token → Token) : Prop extends Token.KeepsKind f where
  text (t : Token) : (f t).text = t.text

theorem Token.isMove_id : IsMove id := ⟨⟨fun _ => rfl⟩, fun _ => rfl⟩

/-- The map keeps what the grammar sees of a tree, but for tokens, which it takes to others. -/
structure Tree.IsHom (f : Token → Token) (g : Tree → Tree) : Prop where
  kind (t : Tree) : (g t).kind = t.kind
  token? (t : Tree) : (g t).token? = t.token?.map f
  children (t : Tree) : (g t).children = t.children.map g
  significantTokens (t : Tree) : (g t).significantTokens = t.significantTokens.map f

/-- The map keeps how the grammar sees a place, the trees around it mapped. Nothing is said of what is
above a hidden token. -/
structure Place.IsHom (f : Token → Token) (g : Tree → Tree) (h : Place → Place) : Prop
    extends Tree.IsHom f g where
  focus (p : Place) : (h p).focus = g p.focus
  parentKind? (p : Place) : (h p).parentKind? = p.parentKind?
  index? (p : Place) : (h p).index? = p.index?
  isLast (p : Place) : (h p).isLast = p.isLast
  next? (p : Place) : (h p).next? = p.next?.map g
  previous? (p : Place) : (h p).previous? = p.previous?.map g
  parent? (p : Place) (hp : p.focus.isHidden = false) : (h p).parent? = p.parent?.map h

/-! ### Trees -/

namespace Tree.IsHom
variable {f : Token → Token} {g : Tree → Tree} (h : IsHom f g) (t : Tree)
include h

theorem isNode (k : NodeKind) : (g t).isNode k = t.isNode k := by
  rw [Tree.isNode, Tree.isNode, h.kind]

omit t in
theorem map_token (s : Token) : g (.token s) = .token (f s) := eq_token_of_token? (h.token? (.token s))

omit t in
theorem exists_node (k : NodeKind) (cs : List Tree) : ∃ ds, g (.node k cs) = .node k ds := by
  have himage := h.kind (.node k cs)
  cases hg : g (.node k cs) with
  | token u =>
    rw [hg] at himage
    cases himage
  | node n ds =>
    rw [hg] at himage
    exact ⟨ds, congrArg (Tree.node · ds) (Kind.node.inj himage)⟩

theorem child? (i : Nat) : (g t).child? i = (t.child? i).map g := by
  rw [Tree.child?, h.children, List.getElem?_map, Tree.child?]

theorem firstToken? : (g t).firstToken? = t.firstToken?.map f := by
  rw [Tree.firstToken?_eq, h.significantTokens, List.head?_map, Tree.firstToken?_eq]

theorem lastToken? : (g t).lastToken? = t.lastToken?.map f := by
  rw [Tree.lastToken?_eq, h.significantTokens, List.getLast?_map, Tree.lastToken?_eq]

theorem text (hf : Token.IsMove f) : (g t).text = t.text := by
  rw [Tree.text, h.significantTokens, List.map_map, Tree.text]
  congr 1
  exact List.map_congr_left fun s _ => hf.text s

theorem comp_isNode (k : NodeKind) : ((·.isNode k) ∘ g) = (·.isNode k) := by
  funext t
  exact h.isNode t k

end Tree.IsHom

/-! ### Hidden tokens -/

theorem Slot.isHidden_of_holds {s : Slot} {p : Place} (h : s.holds p = true) :
    p.focus.isHidden = false := by
  cases s with
  | «at» i => exact Place.isHidden_of_index? (eq_of_beq h)
  | last =>
    obtain ⟨t, _ | ⟨f, path⟩⟩ := p
    · cases h
    · exact Bool.not_eq_true' _ ▸ (Bool.and_eq_true_iff.mp h).1

theorem Anchor.isHidden_of_isChildAt {kinds : List NodeKind} {i : Nat} {p : Place}
    (h : isChildAt kinds i p = true) : p.focus.isHidden = false :=
  Place.isHidden_of_index? (eq_of_beq (Bool.and_eq_true_iff.mp h).2)

theorem Anchor.isHidden_of_holds {a : Anchor} {p : Place} (h : a.holds p = true) :
    p.focus.isHidden = false := by
  cases a with
  | child parent slot => exact Slot.isHidden_of_holds (Bool.and_eq_true_iff.mp h).2
  | callee statements i => exact isHidden_of_isChildAt (Bool.and_eq_true_iff.mp h).1

theorem isHidden_of_classify {flavor : Flavor} {p : Place} {k : SymbolKind}
    (h : classify flavor p = some k) : p.focus.isHidden = false := by
  obtain ⟨s, hs, -⟩ := Option.map_eq_some_iff.mp h
  have hholds := List.find?_some hs
  rw [Shape.holds, Bool.and_eq_true] at hholds
  exact Anchor.isHidden_of_holds hholds.1

/-! ### Places -/

namespace Place.IsHom
variable {f : Token → Token} {g : Tree → Tree} {h : Place → Place} (hh : IsHom f g h)
include hh

theorem ancestors {p : Place} (hp : p.focus.isHidden = false) :
    (h p).ancestors = p.ancestors.map h := by
  obtain ⟨t, path⟩ := p
  induction path generalizing t with
  | nil => exact ancestors_eq_nil (hh.parent? ⟨t, []⟩ hp)
  | cons s path ih =>
    have hparent : (⟨t, s :: path⟩ : Place).parent? =
        some ⟨.node s.kind (s.before.reverse ++ t :: s.after), path⟩ := rfl
    have himage := hh.parent? ⟨t, s :: path⟩ hp
    rw [hparent] at himage
    rw [ancestors_of_parent? hparent, ancestors_of_parent? himage, ih _ rfl]
    rfl

theorem ancestor? {p : Place} (hp : p.focus.isHidden = false) (k : NodeKind) :
    (h p).ancestor? k = (p.ancestor? k).map h := by
  rw [Place.ancestor?, hh.ancestors hp, List.find?_map, Place.ancestor?]
  congr 2
  funext q
  rw [Function.comp_apply, hh.focus, hh.isNode]

/-! ### References -/

theorem holds_slot (s : Slot) (p : Place) : s.holds (h p) = s.holds p := by
  cases s with
  | «at» i => rw [Slot.holds, Slot.holds, hh.index?]
  | last => exact hh.isLast p

theorem isChildAt (kinds : List NodeKind) (i : Nat) (p : Place) :
    Anchor.isChildAt kinds i (h p) = Anchor.isChildAt kinds i p := by
  rw [Anchor.isChildAt, Anchor.isChildAt, hh.parentKind?, hh.index?]

theorem parentSatisfies {p : Place} (hp : p.focus.isHidden = false) {test : Place → Bool}
    (htest : ∀ q, q.focus.isHidden = false → test (h q) = test q) :
    Anchor.parentSatisfies test (h p) = Anchor.parentSatisfies test p := by
  rw [Anchor.parentSatisfies, Anchor.parentSatisfies, hh.parent? p hp]
  cases hq : p.parent? with
  | none => rfl
  | some q => exact htest q (isHidden_of_parent? hq)

theorem holds_anchor (a : Anchor) (p : Place) : a.holds (h p) = a.holds p := by
  cases a with
  | child parent slot => rw [Anchor.holds, Anchor.holds, hh.parentKind?, hh.holds_slot]
  | callee statements i =>
    rw [Anchor.holds, Anchor.holds, hh.isChildAt]
    cases hchild : Anchor.isChildAt [.invocationExpression] 0 p with
    | false => rfl
    | true =>
      rw [hh.parentSatisfies (Anchor.isHidden_of_isChildAt hchild)]
      intro q hq
      rw [hh.isChildAt, hh.parentSatisfies hq]
      exact fun r _ => hh.isChildAt statements i r

theorem holds_shape (hf : Token.IsMove f) (s : Shape) (p : Place) : s.holds (h p) = s.holds p := by
  have hfollows : ∀ word, Shape.follows word (h p) = Shape.follows word p := by
    intro word
    rw [Shape.follows, Shape.follows, hh.previous?, Option.any_map]
    congr 1
    funext t
    rw [hh.text t hf]
  simp only [Shape.holds, hh.holds_anchor, hfollows]

/-- **What a name refers to is kept.** -/
theorem classify (hf : Token.IsMove f) (flavor : Flavor) (p : Place) :
    classify flavor (h p) = QuestScript.classify flavor p := by
  rw [QuestScript.classify, QuestScript.classify]
  congr 2
  funext s
  exact hh.holds_shape hf s p

end Place.IsHom

end QuestScript
