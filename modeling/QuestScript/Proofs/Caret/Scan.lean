import QuestScript.Proofs.Caret
import QuestScript.Proofs.Caret.Touch
import QuestScript.Proofs.Grammar.Robust
import QuestScript.Proofs.Grammar.Solid

/-! # Looking under a caret is a scan

The tree is searched for what is under a caret: whole branches are passed over by their lines, and the children
of a node are searched before its hidden tokens. What is found is what a walk over the token stream finds: the
first token at the caret that the grammar sees, and if there is none the first hidden one, which belongs to the
innermost node around it (`Parse.resolve_scans`).

The branches do not get in each other's way since a hidden token at the caret has no token of the grammar at the
caret but next to it, and within a node it has one on either side that is not. So where a branch finds a hidden
token nothing else is left to find (`Parse.Finds`). -/

namespace QuestScript

/-- The tokens that the grammar does not see, behind the first that it sees: hidden ones, and the end. -/
def TokenStream.unseen (s : TokenStream) : List Token :=
  s.tokens.filter fun t => t.isEnd || t.isHidden && s.firstMeaningful?.any (·.index < t.index)

namespace Parse
open QuestScript.Tree Place

/-- The place is that of a node whose tokens enclose an index, and the node is not one around a skipped
token. -/
structure IsAround (p : Parse) (i : Nat) (q : Place) : Prop where
  isNode : q.focus.token? = none
  sound : q.focus.isNode .error = false
  encloses : p.Encloses q.focus i

/-- **The innermost of the nodes at some places around an index**: all others are above it. -/
structure IsInnermost (p : Parse) (places : List Place) (i : Nat) (q : Place) : Prop where
  mem : q ∈ places
  around : p.IsAround i q
  above : ∀ r ∈ places, p.IsAround i r → r = q ∨ r ∈ q.ancestors

/-- **What is found in some trees**, which stand at the places. -/
inductive Finds (p : Parse) (c : Caret) (ts : List Tree) (places : List Place) :
    Option CaretHit → Prop
  /-- The first of their leaves that is at the caret. -/
  | leaf {s : Token} {place : Place} : c.IsFirst (leavesOf ts) s → place ∈ places →
      place.focus = .token s → Finds p c ts places (some ⟨s.index, place, c.textBefore s⟩)
  /-- The first token of all at the caret, where no leaf is, in the innermost node. -/
  | hidden {h : Token} {place : Place} : (∀ s ∈ leavesOf ts, c.isIn s = false) →
      c.IsFirst p.stream.tokens h → p.IsInnermost places h.index place →
      Finds p c ts places (some ⟨h.index, place, c.textBefore h⟩)
  /-- Nothing, if there is no token at the caret from the first to the last leaf of any of them. -/
  | nothing : (∀ t ∈ ts, ∀ u ∈ p.stream.tokens, ReachAround t.leaves u.index → c.isIn u = false) →
      Finds p c ts places none

section Search
variable {flavor : Flavor} {source : String} {c : Caret} {path : List Frame} {k : NodeKind}
  {t : Tree} {ts cs before : List Tree} {place q : Place} {i : Nat} {u : Token}

/-! ### Places -/

theorem IsInnermost.node {p : Parse} (h : p.IsInnermost (withinAll k path [] cs) i q) :
    p.IsInnermost (within path (.node k cs)) i q := by
  rw [within]
  refine ⟨List.mem_cons_of_mem _ h.mem, h.around, fun r hr hri => ?_⟩
  rcases List.mem_cons.mp hr with rfl | hr
  · exact Or.inr (mem_ancestors h.mem)
  · exact h.above r hr hri

/-! ### What is found in one place -/

theorem mem_tokens_of_mem_leaves
    (hsub : (leavesOf cs).Sublist (parse flavor source).stream.significant)
    (hu : u ∈ leavesOf cs) : u ∈ (parse flavor source).stream.tokens :=
  TokenStream.mem_tokens_of_mem_significant (hsub.subset hu)

theorem finds_hit? {s : Token} (hs : s ∈ (parse flavor source).stream.tokens) (hleaves : t.leaves = [s])
    {places : List Place} (hplace : place ∈ places) (hfocus : place.focus = .token s) :
    Finds (parse flavor source) c [t] places (hit? c place s) := by
  have hall : leavesOf [t] = [s] := by rw [leavesOf_cons, leavesOf_nil, List.append_nil, hleaves]
  unfold hit?
  split
  · rename_i hin
    refine .leaf ⟨hall ▸ List.mem_singleton_self s, hin, fun u hu _ => ?_⟩ hplace hfocus
    rw [hall, List.mem_singleton] at hu
    rw [hu]
  · rename_i hin
    refine .nothing fun t' ht u hu hreach => ?_
    rw [List.mem_singleton.mp ht, hleaves] at hreach
    obtain ⟨⟨l, hl, hle⟩, m, hm, hge⟩ := hreach
    rw [List.mem_singleton.mp hl] at hle
    rw [List.mem_singleton.mp hm] at hge
    rw [TokenStream.eq_of_index_eq hu hs (Nat.le_antisymm hge hle)]
    exact Bool.eq_false_iff.mpr hin

theorem findSome?_hit? (c : Caret) (place : Place) (tokens : List Token) :
    tokens.findSome? (hit? c place) =
      (tokens.find? c.isIn).map fun t => ⟨t.index, place, c.textBefore t⟩ := by
  induction tokens with
  | nil => rfl
  | cons t tokens ih =>
    by_cases ht : c.isIn t = true
    · rw [List.findSome?_cons, hit?, if_pos ht, List.find?_cons_of_pos ht, Option.map_some]
    · rw [List.findSome?_cons, hit?, if_neg ht, List.find?_cons_of_neg ht, ih]

theorem resolveIn_error (p : Parse) {s : Token} (hs : s.isSignificant = true) :
    p.resolveIn c path (.node .error [.token s]) = hit? c ⟨.token s, ⟨.error, [], []⟩ :: path⟩ s := by
  simp [resolveIn, firstLeaf?, descendants, within, withinAll, token?, hs]

theorem resolveIn_node (p : Parse) (hk : k ≠ .error) : p.resolveIn c path (.node k cs) =
    if isBeside c (p.tokensIn (.node k cs)) then none
    else (p.resolveAmong c k path [] cs).or
      ((p.tokensIn (.node k cs)).findSome? (hit? c ⟨.node k cs, path⟩)) := by
  simp only [resolveIn, if_neg hk]
  split
  · rfl
  · cases p.resolveAmong c k path [] cs <;> rfl

theorem resolveAmong_cons (p : Parse) : p.resolveAmong c k path before (t :: ts) =
    (p.resolveIn c (⟨k, before, ts⟩ :: path) t).or (p.resolveAmong c k path (t :: before) ts) := by
  rw [resolveAmong]
  cases p.resolveIn c (⟨k, before, ts⟩ :: path) t <;> rfl

/-! ### Branch after branch -/

theorem IsAround.reachAround (hsub : t.leaves.Sublist (parse flavor source).stream.significant)
    (h : (parse flavor source).IsAround i q) (hq : q ∈ within path t) : ReachAround t.leaves i := by
  have hleaves := leaves_of_mem_within path t q hq
  exact ((encloses_iff (hleaves.trans hsub)).mp h.encloses).mono hleaves.subset

theorem ne_of_isIn {s h : Token} (hs : c.isIn s = false) (hh : c.isIn h = true) : s ≠ h := by
  rintro rfl
  rw [hh] at hs
  cases hs

section Places
variable (hsub : (leavesOf cs).Sublist (parse flavor source).stream.significant)
include hsub

theorem IsAround.exists_reachAround (h : (parse flavor source).IsAround i q)
    (hq : q ∈ withinAll k path before cs) : ∃ t ∈ cs, ReachAround t.leaves i := by
  obtain ⟨t, ht, hleaves⟩ := leaves_of_mem_withinAll k path before cs q hq
  have htree := leavesOf_sublist cs (mem_subtreesOf_of_mem ht)
  exact ⟨t, ht, ((encloses_iff (hleaves.trans (htree.trans hsub))).mp h.encloses).mono hleaves.subset⟩

theorem isIn_leaf_eq_false (hno : ∀ t ∈ cs, ∀ u ∈ (parse flavor source).stream.tokens,
    ReachAround t.leaves u.index → c.isIn u = false) : ∀ s ∈ leavesOf cs, c.isIn s = false := by
  intro s hs
  obtain ⟨t, ht, hleaf⟩ := mem_leavesOf.mp hs
  exact hno t ht s (mem_tokens_of_mem_leaves hsub hs) (reachAround_of_mem hleaf)

theorem not_isAround (hno : ∀ t ∈ cs, ∀ u ∈ (parse flavor source).stream.tokens,
    ReachAround t.leaves u.index → c.isIn u = false) (hu : u ∈ (parse flavor source).stream.tokens)
    (hin : c.isIn u = true) :
    ∀ r ∈ withinAll k path before cs, ¬ (parse flavor source).IsAround u.index r := by
  intro r hr hru
  obtain ⟨t, ht, hreach⟩ := hru.exists_reachAround hsub hr
  exact ne_of_isIn (hno t ht u hu hreach) hin rfl

end Places

/-- Where a hidden token at the caret is reached around, leaves that are not at the caret are strictly around
it. -/
theorem exists_leaves_around {h : Token} {ls : List Token}
    (hls : ∀ l ∈ ls, l ∈ (parse flavor source).stream.tokens)
    (hh : h ∈ (parse flavor source).stream.tokens) (hin : c.isIn h = true)
    (hno : ∀ l ∈ ls, c.isIn l = false) (hreach : ReachAround ls h.index) :
    ∃ l ∈ ls, ∃ m ∈ ls, l.index < h.index ∧ h.index < m.index := by
  obtain ⟨⟨l, hl, hle⟩, m, hm, hge⟩ := hreach
  have hne : ∀ s ∈ ls, s.index ≠ h.index := fun s hs heq =>
    ne_of_isIn (hno s hs) hin (TokenStream.eq_of_index_eq (hls s hs) hh heq)
  exact ⟨l, hl, m, hm, lt_of_le_of_ne hle (hne l hl), lt_of_le_of_ne hge (hne m hm).symm⟩

/-- **One tree, then others.** If something is found in the first, nothing that the others have comes before
it. -/
theorem Finds.cons {found others : Option CaretHit}
    (hsub : (leavesOf (t :: ts)).Sublist (parse flavor source).stream.significant)
    (hfound : Finds (parse flavor source) c [t] (within (⟨k, before, ts⟩ :: path) t) found)
    (hothers : Finds (parse flavor source) c ts (withinAll k path (t :: before) ts) others) :
    Finds (parse flavor source) c (t :: ts) (withinAll k path before (t :: ts))
      (found.or others) := by
  have hsorted := (TokenStream.pairwise_index_significant flavor source).sublist hsub
  have hmem : ∀ l ∈ leavesOf (t :: ts), l ∈ (parse flavor source).stream.tokens := fun l hl =>
    mem_tokens_of_mem_leaves hsub hl
  rw [leavesOf_cons] at hsub hsorted hmem
  have htree := (List.sublist_append_left _ _).trans hsub
  have hrest := (List.sublist_append_right _ _).trans hsub
  obtain ⟨-, -, hbehind⟩ := List.pairwise_append.mp hsorted
  have hone : leavesOf [t] = t.leaves := by rw [leavesOf_cons, leavesOf_nil, List.append_nil]
  have hleft : ∀ q ∈ within (⟨k, before, ts⟩ :: path) t, q ∈ withinAll k path before (t :: ts) :=
    fun q hq => by rw [withinAll]; exact List.mem_append_left _ hq
  have hright : ∀ q ∈ withinAll k path (t :: before) ts, q ∈ withinAll k path before (t :: ts) :=
    fun q hq => by rw [withinAll]; exact List.mem_append_right _ hq
  cases hfound with
  | @leaf s place hfirst hplace hfocus =>
    rw [hone] at hfirst
    refine .leaf ⟨?_, hfirst.isIn, fun u hu huin => ?_⟩ (hleft place hplace) hfocus
    · rw [leavesOf_cons]
      exact List.mem_append_left _ hfirst.mem
    · rw [leavesOf_cons, List.mem_append] at hu
      rcases hu with hu | hu
      · exact hfirst.le u hu huin
      · exact (hbehind s hfirst.mem u hu).le
  | @hidden h place hno hfirst hinner =>
    rw [hone] at hno
    have hreach := hinner.around.reachAround htree hinner.mem
    obtain ⟨-, -, m, hm, -, hhm⟩ := exists_leaves_around
      (fun l hl => hmem l (List.mem_append_left _ hl)) hfirst.mem hfirst.isIn hno hreach
    refine .hidden (fun s hs => ?_) hfirst ⟨hleft place hinner.mem, hinner.around, fun r hr hrh => ?_⟩
    · rw [leavesOf_cons] at hs
      rcases List.mem_append.mp hs with hs | hs
      · exact hno s hs
      · exact Caret.not_isIn_of_between hfirst.mem (hmem m (List.mem_append_left _ hm))
          (hmem s (List.mem_append_right _ hs)) hhm (hbehind m hm s hs) hfirst.isIn
    · rw [withinAll] at hr
      rcases List.mem_append.mp hr with hr | hr
      · exact hinner.above r hr hrh
      · -- The leaves of a node in a later tree are all behind the hidden token.
        obtain ⟨t', ht', ⟨l, hl, hle⟩, -⟩ := hrh.exists_reachAround hrest hr
        have hlt := hbehind m hm l (mem_leavesOf.mpr ⟨t', ht', hl⟩)
        omega
  | nothing hno =>
    have hleaf : ∀ s ∈ leavesOf [t], c.isIn s = false := isIn_leaf_eq_false (hone ▸ htree) hno
    rw [hone] at hleaf
    cases hothers with
    | @leaf s place hfirst hplace hfocus =>
      refine .leaf ⟨?_, hfirst.isIn, fun u hu huin => ?_⟩ (hright place hplace) hfocus
      · rw [leavesOf_cons]
        exact List.mem_append_right _ hfirst.mem
      · rw [leavesOf_cons, List.mem_append] at hu
        rcases hu with hu | hu
        · exact absurd rfl (ne_of_isIn (hleaf u hu) huin)
        · exact hfirst.le u hu huin
    | @hidden h place hnone hfirst hinner =>
      refine .hidden (fun s hs => ?_) hfirst ⟨hright place hinner.mem, hinner.around, fun r hr hrh => ?_⟩
      · rw [leavesOf_cons] at hs
        exact (List.mem_append.mp hs).elim (hleaf s) (hnone s)
      · rw [withinAll] at hr
        rcases List.mem_append.mp hr with hr | hr
        · have hout := hno t (List.mem_singleton_self t) h hfirst.mem (hrh.reachAround htree hr)
          exact absurd rfl (ne_of_isIn hout hfirst.isIn)
        · exact hinner.above r hr hrh
    | nothing hothers =>
      refine .nothing fun t' ht' => ?_
      rcases List.mem_cons.mp ht' with rfl | ht'
      · exact hno t' (List.mem_singleton_self t')
      · exact hothers t' ht'

/-- What stands in the reach of leaves that are not at the caret, and is the first at the caret in their reach,
is the first of all. -/
theorem isFirst_of_reachAround {h : Token} {ls : List Token}
    (hls : ∀ l ∈ ls, l ∈ (parse flavor source).stream.tokens)
    (hh : h ∈ (parse flavor source).stream.tokens) (hin : c.isIn h = true)
    (hno : ∀ l ∈ ls, c.isIn l = false) (hreach : ReachAround ls h.index)
    (hle : ∀ u ∈ (parse flavor source).stream.tokens, ReachAround ls u.index → c.isIn u = true →
      h.index ≤ u.index) : c.IsFirst (parse flavor source).stream.tokens h := by
  obtain ⟨l, hl, m, hm, hlh, hhm⟩ := exists_leaves_around hls hh hin hno hreach
  refine Caret.IsFirst.of_behind (hls l hl) hh hlh hin (hno l hl) fun u hu hlu huin => ?_
  by_contra hlt
  exact hlt (hle u hu ⟨⟨l, hl, hlu.le⟩, m, hm, by omega⟩ huin)

/-- **A node after its children.** What is found in them is found in the node, else a hidden token between
them. -/
theorem Finds.node {found : Option CaretHit} (hk : k ≠ .error) (hfile : k ≠ .file)
    (hsub : (leavesOf cs).Sublist (parse flavor source).stream.significant)
    (hfound : Finds (parse flavor source) c cs (withinAll k path [] cs) found) :
    Finds (parse flavor source) c [.node k cs] (within path (.node k cs))
      (if isBeside c ((parse flavor source).tokensIn (.node k cs)) then none
        else found.or (((parse flavor source).tokensIn (.node k cs)).findSome?
          (hit? c ⟨.node k cs, path⟩))) := by
  have hleaves : (Tree.node k cs).leaves = leavesOf cs := leaves_node k cs
  have hone : leavesOf [Tree.node k cs] = leavesOf cs := by
    rw [leavesOf_cons, leavesOf_nil, List.append_nil, hleaves]
  have htokens : ∀ u, u ∈ (parse flavor source).tokensIn (.node k cs) ↔
      u ∈ (parse flavor source).stream.tokens ∧ ReachAround (leavesOf cs) u.index := fun u => by
    rw [mem_tokensIn (hleaves ▸ hsub) (by simp [isNode, kind, hfile]), hleaves]
  have hplace : ∀ q ∈ withinAll k path [] cs, q ∈ within path (.node k cs) := fun q hq => by
    rw [within]
    exact List.mem_cons_of_mem _ hq
  have hin_tree := tokensIn_sublist (parse flavor source) (.node k cs)
  split
  · rename_i hbeside
    refine .nothing fun t ht u hu hreach => ?_
    rw [List.mem_singleton.mp ht, hleaves] at hreach
    exact isIn_eq_false_of_isBeside hin_tree hbeside ((htokens u).mpr ⟨hu, hreach⟩)
  cases hfound with
  | @leaf s place hfirst hmem hfocus => exact .leaf (hone ▸ hfirst) (hplace place hmem) hfocus
  | hidden hno hfirst hinner =>
    exact .hidden (hone ▸ hno) hfirst hinner.node
  | nothing hno =>
    have hleaf := isIn_leaf_eq_false hsub hno
    rw [Option.none_or, findSome?_hit?]
    cases hfind : ((parse flavor source).tokensIn (.node k cs)).find? c.isIn with
    | none =>
      refine .nothing fun t ht u hu hreach => ?_
      rw [List.mem_singleton.mp ht, hleaves] at hreach
      have hout := List.find?_eq_none.mp hfind u ((htokens u).mpr ⟨hu, hreach⟩)
      exact Bool.eq_false_iff.mpr hout
    | some h =>
      have hsorted := (TokenStream.pairwise_index_tokens flavor source).sublist hin_tree
      have hfirst := Caret.isFirst_of_find? hsorted hfind
      obtain ⟨hh, hreach⟩ := (htokens h).mp hfirst.mem
      have hall := isFirst_of_reachAround (fun l hl => mem_tokens_of_mem_leaves hsub hl) hh hfirst.isIn
        hleaf hreach fun u hu hu_reach => hfirst.le u ((htokens u).mpr ⟨hu, hu_reach⟩)
      have haround : (parse flavor source).IsAround h.index ⟨.node k cs, path⟩ :=
        ⟨rfl, by simp [isNode, kind, hk], (encloses_iff (hleaves ▸ hsub)).mpr (hleaves ▸ hreach)⟩
      refine .hidden (hone ▸ hleaf) hall ⟨self_mem_within _ _, haround, fun r hr hrh => ?_⟩
      rw [within, List.mem_cons] at hr
      rcases hr with rfl | hr
      · exact Or.inl rfl
      · exact absurd hrh (not_isAround hsub hno hh hfirst.isIn r hr)

mutual
/-- **What the search finds in a tree.** -/
theorem resolveIn_finds : ∀ (path : List Frame) (t : Tree), t.IsTolerated flavor →
    t.isNode .file = false → t.leaves.Sublist (parse flavor source).stream.significant →
      Finds (parse flavor source) c [t] (within path t) ((parse flavor source).resolveIn c path t)
  | path, .token s, _, _, hsub => by
    have hs := TokenStream.mem_tokens_of_mem_significant (hsub.subset (by simp : s ∈ (token s).leaves))
    rw [resolveIn]
    exact finds_hit? hs (leaves_token s) (self_mem_within path _) rfl
  | path, .node k cs, h, hfile, hsub => by
    by_cases hk : k = .error
    · subst hk
      obtain ⟨s, hcs⟩ := h.hasShape.skipped rfl
      obtain rfl : cs = [.token s] := hcs
      have hs := hsub.subset (by simp : s ∈ (Tree.node .error [.token s]).leaves)
      rw [resolveIn_error _ (List.mem_filter.mp hs).2]
      exact finds_hit? (TokenStream.mem_tokens_of_mem_significant hs) (by simp)
        (by simp [within, withinAll]) rfl
    · rw [leaves_node] at hsub
      rw [resolveIn_node _ hk]
      exact .node hk (fun hk => by simp [isNode, kind, hk] at hfile) hsub
        (resolveAmong_finds k path [] cs (fun t ht => h.of_mem ht) hsub)
theorem resolveAmong_finds : ∀ (k : NodeKind) (path : List Frame) (before cs : List Tree),
    (∀ t ∈ cs, t.IsTolerated flavor ∧ t.isNode .file = false) →
      (leavesOf cs).Sublist (parse flavor source).stream.significant →
      Finds (parse flavor source) c cs (withinAll k path before cs)
        ((parse flavor source).resolveAmong c k path before cs)
  | k, path, before, [], _, _ => by
    rw [resolveAmong]
    exact .nothing fun t ht => absurd ht List.not_mem_nil
  | k, path, before, t :: ts, h, hsub => by
    have hsub' := hsub
    rw [leavesOf_cons] at hsub'
    obtain ⟨ht, hfile⟩ := h t List.mem_cons_self
    rw [resolveAmong_cons]
    exact .cons hsub
      (resolveIn_finds _ t ht hfile ((List.sublist_append_left _ _).trans hsub'))
      (resolveAmong_finds k path (t :: before) ts (fun u hu => h u (List.mem_cons_of_mem t hu))
        ((List.sublist_append_right _ _).trans hsub'))
end

/-! ### The whole tree -/

theorem any_firstMeaningful?_iff :
    (parse flavor source).stream.firstMeaningful?.any (decide <| ·.index < i) = true ↔
      ∃ s ∈ (parse flavor source).stream.significant, s.index < i := by
  rw [TokenStream.firstMeaningful?, Option.any_eq_true]
  constructor
  · exact fun ⟨s, hs, hlt⟩ => ⟨s, List.mem_of_mem_head? hs, of_decide_eq_true hlt⟩
  · rintro ⟨s, hs, hlt⟩
    have hsorted := TokenStream.pairwise_index_significant flavor source
    obtain ⟨first, rest, hcut⟩ := List.exists_cons_of_ne_nil (List.ne_nil_of_mem hs)
    refine ⟨first, by rw [hcut]; rfl, decide_eq_true ?_⟩
    change (parse flavor source).stream.significant.Pairwise _ at hsorted
    rw [hcut] at hs hsorted
    rcases List.mem_cons.mp hs with rfl | hs
    · exact hlt
    · exact ((List.pairwise_cons.mp hsorted).1 s hs).trans hlt

theorem mem_unseen_iff : u ∈ (parse flavor source).stream.unseen ↔
    u ∈ (parse flavor source).tokensIn (parse flavor source).tree ∧
      u ∉ (parse flavor source).stream.significant := by
  rw [TokenStream.unseen, List.mem_filter, Bool.or_eq_true, Bool.and_eq_true, any_firstMeaningful?_iff]
  constructor
  · rintro ⟨hu, h⟩
    refine ⟨(mem_tokensIn_tree hu).mpr (h.imp_right fun ⟨_, s, hs, hlt⟩ => ⟨s, hs, hlt.le⟩), fun hsig => ?_⟩
    obtain ⟨hhidden, hend⟩ := TokenStream.not_isHidden_of_mem_significant hsig
    rcases h with h | ⟨h, -⟩
    · rw [hend] at h
      cases h
    · rw [hhidden] at h
      cases h
  · rintro ⟨hmem, hsig⟩
    have hu := (tokensIn_sublist _ _).subset hmem
    refine ⟨hu, ?_⟩
    cases hend : u.isEnd with
    | true => exact Or.inl rfl
    | false =>
      have hhidden : u.isHidden = true := by
        by_contra hvisible
        exact hsig (TokenStream.mem_significant hu (Bool.eq_false_iff.mpr hvisible) hend)
      rcases (mem_tokensIn_tree hu).mp hmem with h | ⟨s, hs, hle⟩
      · rw [hend] at h
        cases h
      · refine Or.inr ⟨hhidden, s, hs, lt_of_le_of_ne hle fun heq => hsig ?_⟩
        rwa [← TokenStream.eq_of_index_eq (TokenStream.mem_tokens_of_mem_significant hs) hu heq]

theorem find?_unseen_eq
    (hno : ∀ s ∈ (parse flavor source).stream.significant, c.isIn s = false)
    (h : c.IsFirst ((parse flavor source).tokensIn (parse flavor source).tree) u) :
    (parse flavor source).stream.unseen.find? c.isIn = some u := by
  have hu : u ∈ (parse flavor source).stream.unseen :=
    mem_unseen_iff.mpr ⟨h.mem, fun hs => ne_of_isIn (hno u hs) h.isIn rfl⟩
  have hsorted : (parse flavor source).stream.unseen.Pairwise (·.index < ·.index) :=
    (TokenStream.pairwise_index_tokens flavor source).sublist List.filter_sublist
  exact (h.of_subset hu fun v hv => (mem_unseen_iff.mp hv).1).find?_eq hsorted

theorem resolve_eq (p : Parse) (hfile : p.tree = .node .file cs) : p.resolve c =
    if isBeside c (p.tokensIn p.tree) then none
    else (p.resolveAmong c .file [] [] cs).or
      ((p.tokensIn p.tree).findSome? (hit? c (Place.root p.tree))) := by
  rw [resolve, hfile, resolveIn_node p (by simp), Place.root]

/-- Where there is a token at the caret, the search is not kept from it. -/
theorem resolve_eq_of_isIn (hfile : (parse flavor source).tree = .node .file cs)
    (h : u ∈ (parse flavor source).tokensIn (parse flavor source).tree) (hin : c.isIn u = true) :
    (parse flavor source).resolve c = ((parse flavor source).resolveAmong c .file [] [] cs).or
      (((parse flavor source).tokensIn (parse flavor source).tree).findSome?
        (hit? c (Place.root (parse flavor source).tree))) := by
  rw [resolve_eq _ hfile]
  exact if_neg fun hbeside =>
    ne_of_isIn (isIn_eq_false_of_isBeside (tokensIn_sublist _ _) hbeside h) hin rfl

/-- The place is the innermost of the nodes around an index, or the whole file if there is none. -/
def IsHome (p : Parse) (i : Nat) (place : Place) : Prop :=
  p.IsInnermost (Place.root p.tree).descendants i place ∨
    place = Place.root p.tree ∧ ∀ q ∈ (Place.root p.tree).descendants, ¬ p.IsAround i q

/-- **What is found in a document.** -/
inductive Answers (p : Parse) (c : Caret) : Option CaretHit → Prop
  /-- The first token at the caret that the grammar sees. -/
  | seen {s : Token} {place : Place} : c.IsFirst p.stream.significant s →
      place ∈ (Place.root p.tree).descendants → place.focus = .token s →
      Answers p c (some ⟨s.index, place, c.textBefore s⟩)
  /-- The first token at the caret of those searched, where there is none that the grammar sees. -/
  | unseen {h : Token} {place : Place} : (∀ s ∈ p.stream.significant, c.isIn s = false) →
      c.IsFirst (p.tokensIn p.tree) h → p.IsHome h.index place →
      Answers p c (some ⟨h.index, place, c.textBefore h⟩)
  /-- Nothing, if no token of those searched is at the caret. -/
  | nothing : (∀ u ∈ p.tokensIn p.tree, c.isIn u = false) → Answers p c none

theorem resolve_answers (flavor : Flavor) (source : String) (c : Caret) :
    (parse flavor source).Answers c ((parse flavor source).resolve c) := by
  obtain ⟨cs, hfile⟩ : ∃ cs, (parse flavor source).tree = .node .file cs := ⟨_, rfl⟩
  have hleaves : leavesOf cs = (parse flavor source).stream.significant := by
    rw [← leaves_node .file, ← hfile]
    exact leaves_tree flavor source
  have hsub : (leavesOf cs).Sublist (parse flavor source).stream.significant := by rw [hleaves]
  have htolerated : (Tree.node .file cs).IsTolerated flavor := hfile ▸ isTolerated_tree flavor source
  have hfound := resolveAmong_finds (c := c) .file [] [] cs (fun t ht => htolerated.of_mem ht) hsub
  have hplaces : (Place.root (parse flavor source).tree).descendants =
      Place.root (parse flavor source).tree :: withinAll .file [] [] cs := by
    rw [descendants, hfile]
    rfl
  have hsearched := tokensIn_sublist (parse flavor source) (parse flavor source).tree
  generalize hresult : (parse flavor source).resolveAmong c .file [] [] cs = result at hfound
  cases hfound with
  | @leaf s place hfirst hmem hfocus =>
    rw [hleaves] at hfirst
    have hs := TokenStream.mem_tokens_of_mem_significant hfirst.mem
    have hsearch := (mem_tokensIn_tree hs).mpr (Or.inr ⟨s, hfirst.mem, Nat.le_refl _⟩)
    rw [resolve_eq_of_isIn hfile hsearch hfirst.isIn, hresult, Option.some_or]
    exact .seen hfirst (hplaces ▸ List.mem_cons_of_mem _ hmem) hfocus
  | @hidden h place hno hfirst hinner =>
    obtain ⟨t, ht, ⟨l, hl, hle⟩, -⟩ := hinner.around.exists_reachAround hsub hinner.mem
    have hsearch := (mem_tokensIn_tree hfirst.mem).mpr
      (Or.inr ⟨l, hleaves ▸ mem_leavesOf.mpr ⟨t, ht, hl⟩, hle⟩)
    rw [resolve_eq_of_isIn hfile hsearch hfirst.isIn, hresult, Option.some_or]
    refine .unseen (hleaves ▸ hno) (hfirst.of_subset hsearch hsearched.subset) (Or.inl ?_)
    rw [descendants, hfile]
    exact hinner.node
  | nothing hno =>
    have hleaf := isIn_leaf_eq_false hsub hno
    cases hfind : ((parse flavor source).tokensIn (parse flavor source).tree).find? c.isIn with
    | none =>
      rw [resolve_eq _ hfile, hresult, findSome?_hit?, hfind, Option.map_none, Option.or_none, ite_self]
      exact .nothing fun u hu => Bool.eq_false_iff.mpr (List.find?_eq_none.mp hfind u hu)
    | some h =>
      have hsorted := (TokenStream.pairwise_index_tokens flavor source).sublist hsearched
      have hfirst := Caret.isFirst_of_find? hsorted hfind
      have houtside : ∀ r ∈ withinAll .file [] [] cs, ¬ (parse flavor source).IsAround h.index r :=
        not_isAround hsub hno (hsearched.subset hfirst.mem) hfirst.isIn
      rw [resolve_eq_of_isIn hfile hfirst.mem hfirst.isIn, hresult, Option.none_or, findSome?_hit?,
        hfind, Option.map_some]
      refine .unseen (hleaves ▸ hleaf) hfirst ?_
      rw [IsHome, hplaces]
      by_cases hroot : (parse flavor source).IsAround h.index (Place.root (parse flavor source).tree)
      · refine Or.inl ⟨List.mem_cons_self, hroot, fun r hr hrh => Or.inl ?_⟩
        exact (List.mem_cons.mp hr).resolve_right fun hr => houtside r hr hrh
      · exact Or.inr ⟨rfl, List.forall_mem_cons.mpr ⟨hroot, houtside⟩⟩

/-- **Looking under a caret is a scan of the token stream.** The first token at the caret that the grammar sees
is found, on its own place. Otherwise the first hidden one behind the first that it sees, or the end, is found, on
the innermost node around it, which is the file if there is none. Otherwise nothing is found. In each case the
token's text is cut at the caret. -/
theorem resolve_scans (flavor : Flavor) (source : String) (c : Caret) :
    let p := parse flavor source
    match p.stream.significant.find? c.isIn, p.stream.unseen.find? c.isIn with
    | some t, _ => ∃ place ∈ (Place.root p.tree).descendants, place.focus = .token t ∧
        p.resolve c = some ⟨t.index, place, c.textBefore t⟩
    | none, some t => ∃ place, p.IsHome t.index place ∧
        p.resolve c = some ⟨t.index, place, c.textBefore t⟩
    | none, none => p.resolve c = none := by
  intro p
  have hanswers : p.Answers c (p.resolve c) := resolve_answers flavor source c
  generalize p.resolve c = result at hanswers
  cases hanswers with
  | @seen s place hfirst hmem hfocus =>
    have hfind : p.stream.significant.find? c.isIn = some s :=
      hfirst.find?_eq (TokenStream.pairwise_index_significant flavor source)
    rw [hfind]
    exact ⟨place, hmem, hfocus, rfl⟩
  | @unseen h place hno hfirst hhome =>
    rw [Caret.find?_eq_none hno, find?_unseen_eq hno hfirst]
    exact ⟨place, hhome, rfl⟩
  | nothing hno =>
    have hsignificant : ∀ s ∈ p.stream.significant, c.isIn s = false := fun s hs => by
      have hmem := TokenStream.mem_tokens_of_mem_significant hs
      exact hno s ((mem_tokensIn_tree hmem).mpr (Or.inr ⟨s, hs, Nat.le_refl _⟩))
    have hunseen : ∀ u ∈ p.stream.unseen, c.isIn u = false := fun u hu =>
      hno u (mem_unseen_iff.mp hu).1
    rw [Caret.find?_eq_none hsignificant, Caret.find?_eq_none hunseen]

end Search

end Parse

end QuestScript
