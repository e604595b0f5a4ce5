import Mathlib.Data.List.Pairwise
import QuestScript.Editor.Outline
import QuestScript.Proofs.Caret.Touch
import QuestScript.Proofs.Editor.Declaration

/-! # The outline is well-nested

Whatever errors a document has, the main blocks and the blocks of states are what the blocks of the file
are around (`Tree.IsTolerated.nodes_eq_filter_contents`), and those stand one after the other
(`Parse.pairwise_contents`). So the entries of an outline, which are taken from two lists, have ranges
that do not overlap, and what names a block lies in its range (`Analysis.outline_well_nested`). -/

namespace QuestScript

namespace Tree
variable {flavor : Flavor} {k : NodeKind} {t : Tree} {cs : List Tree}

/-! ### Blocks of a file -/

/-- What the blocks of a file are around, in document order. -/
def contents (file : Tree) : List Tree :=
  (file.children.filter (·.isNode .block)).filterMap fun b => b.children.find? (·.token?.isNone)

/-- The kinds that the blocks of a file are around, and of what is around those. -/
def blockKinds : List NodeKind := [.file, .block, .mainBlock, .stateBlock]

theorem outer_blockKinds (flavor : Flavor) : Outer flavor blockKinds := by
  intro n hn
  cases flavor <;> cases n <;> first | decide | exact absurd (by decide) hn

theorem IsTolerated.nodes_block (hk : k ∈ [NodeKind.mainBlock, .stateBlock]) (h : t.IsTolerated flavor)
    (ht : t.isNode .block = true) :
    t.nodes k = ((t.children.find? (·.token?.isNone)).filter (·.isNode k)).toList := by
  obtain ⟨m, ds, hds⟩ := h.hasShape.wrapper .block rfl ht
  cases t with
  | token s => cases ht
  | node n cs =>
    obtain rfl : n = .block := by simpa [isNode, kind] using ht
    obtain rfl : cs = [.node m ds] := hds
    have hkinds : k ∈ blockKinds := by
      revert hk
      cases k <;> decide
    have hne : NodeKind.block ≠ k := by
      rintro rfl
      exact absurd hk (by decide)
    have hrule : ∀ m, .node m ∈ (tolerant flavor .block).symbols →
        ∀ n ∈ blockKinds, .node n ∉ (tolerant flavor m).symbols := by
      intro m
      cases flavor <;> cases m <;> decide
    have hm : .node m ∈ (tolerant flavor .block).symbols :=
      h.mem_symbols List.mem_cons_self (by simp [isNode, kind])
    have hbelow : nodesOf k ds = [] :=
      (h.of_mem List.mem_cons_self).1.nodesOf_eq_nil (outer_blockKinds flavor) hkinds (hrule m hm)
    have hfound : (Tree.node .block [.node m ds]).children.find? (·.token?.isNone) =
        some (.node m ds) := rfl
    rw [nodes_node, if_neg hne, nodesOf_cons, nodesOf_nil, List.append_nil, nodes_node, hbelow, hfound,
      Option.filter_some]
    by_cases hmk : m = k <;> simp [isNode, kind, hmk]

/-- **The main blocks and the blocks of states are what the blocks of the file are around.** -/
theorem IsTolerated.nodes_eq_filter_contents (hk : k ∈ [NodeKind.mainBlock, .stateBlock])
    (h : (Tree.node .file cs).IsTolerated flavor) :
    (Tree.node .file cs).nodes k = (Tree.node .file cs).contents.filter (·.isNode k) := by
  have hkinds : k ∈ blockKinds := by
    revert hk
    cases k <;> decide
  have hne : NodeKind.file ≠ k := by
    rintro rfl
    exact absurd hk (by decide)
  have hrule : ∀ m ∈ blockKinds, m ≠ .block → .node m ∉ (tolerant flavor .file).symbols := by
    cases flavor <;> decide
  rw [nodes_node, if_neg hne, h.nodesOf_eq (outer_blockKinds flavor) hkinds hrule, contents,
    filter_children, List.filter_filterMap, List.filterMap_eq_flatMap_toList]
  refine List.flatMap_congr fun b hb => ?_
  obtain ⟨hb, hblock⟩ := List.mem_filter.mp hb
  exact (h.of_mem hb).1.nodes_block hk hblock

theorem leavesOf_contents_sublist (file : Tree) : (leavesOf file.contents).Sublist file.leaves := by
  have hchild : ∀ b c : Tree, b.children.find? (·.token?.isNone) = some c →
      c.leaves.Sublist b.leaves := fun b c hc =>
    leaves_sublist b (mem_subtrees_of_children b.self_mem_subtrees (List.mem_of_find?_eq_some hc))
  exact (leavesOf_filterMap_sublist hchild _).trans
    ((leavesOf_mono List.filter_sublist).trans file.leavesOf_children_sublist)

end Tree

/-! ### Extents -/

namespace Tree
variable {flavor : Flavor} {source : String} {s t : Tree} {u : Token}

/-- Everything in the tree comes before everything in the other. -/
def Precedes (s t : Tree) : Prop := ∀ x ∈ s.leaves, ∀ y ∈ t.leaves, x.index < y.index

theorem exists_extent (h : t.leaves ≠ []) :
    ∃ first last, t.leaves.head? = some first ∧ t.leaves.getLast? = some last ∧
      t.extent = ⟨first.span.start, last.span.stop⟩ := by
  refine ⟨_, _, List.head?_eq_some_head h, List.getLast?_eq_some_getLast h, ?_⟩
  rw [extent, List.head?_eq_some_head h, List.getLast?_eq_some_getLast h]
  rfl

theorem Precedes.stop_le (h : s.Precedes t) (hs : s.leaves ≠ []) (ht : t.leaves ≠ [])
    (hsource : ∀ x ∈ s.leaves, x ∈ (TokenStream.ofSource flavor source).tokens)
    (htsource : ∀ y ∈ t.leaves, y ∈ (TokenStream.ofSource flavor source).tokens) :
    s.extent.stop ≤ t.extent.start := by
  obtain ⟨_, last, -, hlast, hextent⟩ := exists_extent hs
  obtain ⟨first, _, hfirst, -, htextent⟩ := exists_extent ht
  have hlast := List.mem_of_getLast? hlast
  have hfirst := List.mem_of_mem_head? hfirst
  rw [hextent, htextent]
  exact (TokenStream.start_lt_and_stop_le (hsource _ hlast) (htsource _ hfirst) (h _ hlast _ hfirst)).2

theorem extent_around (h : t.leaves.Sublist (TokenStream.ofSource flavor source).significant)
    (hu : u ∈ t.leaves) : t.extent.start ≤ u.span.start ∧ u.span.stop ≤ t.extent.stop := by
  obtain ⟨first, last, hfirst, hlast, hextent⟩ := exists_extent (List.ne_nil_of_mem hu)
  obtain ⟨more, hmore⟩ := List.head?_eq_some_iff.mp hfirst
  obtain ⟨front, hfront⟩ := List.getLast?_eq_some_iff.mp hlast
  rw [hextent]
  constructor
  · rw [hmore] at hu h
    rcases List.mem_cons.mp hu with rfl | hlater
    · exact Position.le_refl _
    · have hpair := ((List.singleton_sublist.mpr hlater).cons_cons first).trans h
      exact Position.le_of_lt (TokenStream.start_lt_and_stop_le_of_pair hpair).1
  · rw [hfront] at hu h
    rcases List.mem_append.mp hu with hearlier | hsame
    · have hpair := ((List.singleton_sublist.mpr hearlier).append (List.Sublist.refl [last])).trans h
      exact Position.le_trans (TokenStream.start_lt_and_stop_le_of_pair hpair).2 last.start_le_stop
    · rw [List.mem_singleton.mp hsame]
      exact Position.le_refl _

end Tree

/-! ### The parsed document -/

namespace Parse
variable (flavor : Flavor) (source : String)

/-- **What the blocks of the file are around stands one after the other.** -/
theorem pairwise_contents : (parse flavor source).tree.contents.Pairwise Tree.Precedes := by
  have hsorted : (Tree.leavesOf (parse flavor source).tree.contents).Pairwise (·.index < ·.index) := by
    refine (TokenStream.pairwise_index_significant flavor source).sublist ?_
    show List.Sublist _ (parse flavor source).stream.significant
    rw [← leaves_tree]
    exact Tree.leavesOf_contents_sublist _
  rw [Tree.leavesOf_eq_flatMap, List.pairwise_flatMap] at hsorted
  exact hsorted.2

theorem nodes_eq_filter_contents {k : NodeKind} (hk : k ∈ [NodeKind.mainBlock, .stateBlock]) :
    (parse flavor source).tree.nodes k = (parse flavor source).tree.contents.filter (·.isNode k) :=
  (isTolerated_tree flavor source).nodes_eq_filter_contents hk

end Parse

/-! ### Entries of blocks -/

namespace OutlineEntry

/-- The entry of a main block with the keyword. -/
def ofMain (block : Tree) (keyword : Token) : OutlineEntry := ⟨"main", none, block.extent, keyword.span⟩

/-- The entry of a state. -/
def ofState (s : StateSymbol) : OutlineEntry :=
  ⟨s.name, s.description, s.block.extent, s.declaration.span⟩

end OutlineEntry

namespace Analysis
variable (flavor : Flavor) (source : String)

theorem mainBlock?_eq : (ofSource flavor source).mainBlock? =
    ((ofSource flavor source).parse.tree.nodes .mainBlock).head? := by
  show (QuestScript.parse flavor source).tree.contents.find? _ =
    ((QuestScript.parse flavor source).tree.nodes .mainBlock).head?
  rw [Parse.nodes_eq_filter_contents flavor source (by decide), List.head?_filter]

theorem exists_mainEntry {block : Tree}
    (h : block ∈ (ofSource flavor source).parse.tree.nodes .mainBlock) :
    ∃ keyword, block.child? 0 = some (.token keyword) ∧ keyword.kind = .keyword .main ∧
      mainEntry? (ofSource flavor source) block = some (.ofMain block keyword) := by
  obtain ⟨hmem, hnode⟩ := List.mem_filter.mp h
  obtain ⟨keyword, hchild, hkind⟩ :=
    Checker.exists_mainKeyword ((Parse.isTolerated_tree flavor source).subtrees block hmem).hasShape hnode
  have hblock : (ofSource flavor source).parse.spanOf? block = some block.extent :=
    Parse.spanOf?_eq_extent flavor source hmem (Tree.isNode_file_of_isNode hnode (by simp))
  have hkeyword : (ofSource flavor source).parse.spanOf? (.token keyword) = some keyword.span := by
    rw [← Tree.extent_token]
    exact Parse.spanOf?_eq_extent flavor source (Tree.mem_subtrees_of_child? hmem hchild) rfl
  refine ⟨keyword, hchild, hkind, ?_⟩
  simp [ mainEntry?, hchild, hblock, hkeyword, OutlineEntry.ofMain]

theorem forall₂_mainEntry :
    let a := ofSource flavor source
    List.Forall₂ (fun block e => ∃ keyword, block.child? 0 = some (.token keyword) ∧
        keyword.kind = .keyword .main ∧ e = .ofMain block keyword)
      ((a.parse.tree.nodes .mainBlock).take 1) (a.mainBlock?.bind a.mainEntry?).toList := by
  intro a
  rw [mainBlock?_eq]
  cases hmains : a.parse.tree.nodes .mainBlock with
  | nil => exact .nil
  | cons block more =>
    obtain ⟨keyword, hchild, hkind, hentry⟩ :=
      exists_mainEntry flavor source (hmains ▸ List.mem_cons_self)
    rw [List.head?_cons, Option.bind_some, hentry]
    exact .cons ⟨keyword, hchild, hkind, rfl⟩ .nil

theorem of_mem_mainEntry {e : OutlineEntry} :
    let a := ofSource flavor source
    e ∈ (a.mainBlock?.bind a.mainEntry?).toList →
      ∃ block keyword, block ∈ a.parse.tree.nodes .mainBlock ∧
        block.child? 0 = some (.token keyword) ∧ e = .ofMain block keyword := by
  intro a he
  obtain ⟨block, hblock, he⟩ := Option.bind_eq_some_iff.mp (Option.mem_toList.mp he)
  rw [mainBlock?_eq] at hblock
  have hmem := List.mem_of_mem_head? hblock
  obtain ⟨keyword, hchild, -, hentry⟩ := exists_mainEntry flavor source hmem
  exact ⟨block, keyword, hmem, hchild, Option.some.inj (he.symm.trans hentry)⟩

theorem stateEntry?_eq {s : StateSymbol} (hs : s ∈ (ofSource flavor source).catalog.states) :
    stateEntry? (ofSource flavor source) s = some (.ofState s) := by
  rw [ stateEntry?, spanOf?_block hs]
  rfl

theorem pairwise_block_states : (ofSource flavor source).catalog.states.Pairwise fun s s' =>
    s.block.Precedes s'.block := by
  have hblocks : ((QuestScript.parse flavor source).tree.nodes .stateBlock).Pairwise Tree.Precedes := by
    rw [Parse.nodes_eq_filter_contents flavor source (by decide)]
    exact (Parse.pairwise_contents flavor source).filter _
  refine List.pairwise_filterMap.mpr (hblocks.imp fun {b b'} h s hs s' hs' => ?_)
  obtain ⟨t, -, rfl⟩ := Option.map_eq_some_iff.mp hs
  obtain ⟨t', -, rfl⟩ := Option.map_eq_some_iff.mp hs'
  exact h

/-- A state has no name that is a keyword. -/
theorem name_ne_main {s : StateSymbol} (hs : s ∈ (ofSource flavor source).catalog.states) :
    s.name ≠ "main" := by
  intro hname
  obtain ⟨hmem, hkind⟩ := (declares_declaration hs).namesState.mem_significant
  have hknows : ((QuestScript.parse flavor source).checker []).Knows s.declaration :=
    Checker.knows_of_mem rfl hmem
  have hword := hknows.wordKind (by rw [hkind]; rfl)
  have hname : s.declaration.text = "main" := hname
  rw [hname, hkind] at hword
  revert hword
  show Lexeme.wordKind flavor _ = _ → False
  cases flavor <;> decide

end Analysis

/-! ### Entries -/

/-- The entry is for a block of the document, of which it selects a token. -/
structure OutlineEntry.IsFor (e : OutlineEntry) (p : Parse) (block : Tree) : Prop where
  mem : block ∈ p.tree.subtrees
  range : e.range = block.extent
  selection : ∃ t ∈ block.leaves, e.selection = t.span

namespace OutlineEntry
variable {flavor : Flavor} {source : String} {e f : OutlineEntry} {b c : Tree}

/-- **The selection lies in the range** and is not empty. -/
theorem IsFor.selection_within (h : e.IsFor (parse flavor source) b) :
    e.range.start ≤ e.selection.start ∧ e.selection.start < e.selection.stop ∧
      e.selection.stop ≤ e.range.stop := by
  obtain ⟨t, ht, hselection⟩ := h.selection
  have hleaves := Parse.leaves_sublist_significant flavor source h.mem
  obtain ⟨hstart, hstop⟩ := Tree.extent_around hleaves ht
  have hlength := TokenStream.charLength_pos
    (TokenStream.mem_tokens_of_mem_significant (hleaves.subset ht))
  rw [h.range, hselection]
  exact ⟨hstart, Position.lt_iff.mpr (.inr ⟨rfl, Nat.lt_add_of_pos_right hlength⟩), hstop⟩

theorem IsFor.stop_le (he : e.IsFor (parse flavor source) b) (hf : f.IsFor (parse flavor source) c)
    (h : b.Precedes c) : e.range.stop ≤ f.range.start := by
  have htokens : ∀ {t : Tree}, t ∈ (parse flavor source).tree.subtrees →
      ∀ x ∈ t.leaves, x ∈ (TokenStream.ofSource flavor source).tokens := fun ht x hx =>
    TokenStream.mem_tokens_of_mem_significant
      ((Parse.leaves_sublist_significant flavor source ht).subset hx)
  obtain ⟨t, ht, -⟩ := he.selection
  obtain ⟨u, hu, -⟩ := hf.selection
  rw [he.range, hf.range]
  exact h.stop_le (List.ne_nil_of_mem ht) (List.ne_nil_of_mem hu) (htokens he.mem) (htokens hf.mem)

end OutlineEntry

namespace Analysis
variable (flavor : Flavor) (source : String)

theorem isFor_main {block : Tree} {keyword : Token}
    (h : block ∈ (ofSource flavor source).parse.tree.nodes .mainBlock)
    (hkeyword : block.child? 0 = some (.token keyword)) :
    (OutlineEntry.ofMain block keyword).IsFor (QuestScript.parse flavor source) block := by
  refine ⟨(List.mem_filter.mp h).1, rfl, keyword, ?_, rfl⟩
  exact Tree.leaves_subset _ (Tree.mem_subtrees_of_child? block.self_mem_subtrees hkeyword) (by simp)

theorem isFor_state {s : StateSymbol} (hs : s ∈ (ofSource flavor source).catalog.states) :
    (OutlineEntry.ofState s).IsFor (QuestScript.parse flavor source) s.block := by
  obtain ⟨hblock, hname⟩ := block_of_mem_states hs
  exact ⟨(List.mem_filter.mp hblock).1, rfl, s.declaration, hname, rfl⟩

theorem precedes_or_precedes {block : Tree} {s : StateSymbol}
    (h : block ∈ (ofSource flavor source).parse.tree.nodes .mainBlock)
    (hs : s ∈ (ofSource flavor source).catalog.states) :
    block.Precedes s.block ∨ s.block.Precedes block := by
  have hstate := (block_of_mem_states hs).1
  have hne : block ≠ s.block := by
    intro heq
    have hmain := (List.mem_filter.mp h).2
    have hnode := (List.mem_filter.mp hstate).2
    rw [Tree.isNode_iff] at hmain hnode
    rw [heq, hnode] at hmain
    cases hmain
  have hcontents : ∀ {k : NodeKind} {t : Tree}, k ∈ [NodeKind.mainBlock, .stateBlock] →
      t ∈ (QuestScript.parse flavor source).tree.nodes k →
        t ∈ (QuestScript.parse flavor source).tree.contents := fun hk ht => by
    rw [Parse.nodes_eq_filter_contents flavor source hk] at ht
    exact List.mem_of_mem_filter ht
  have hsymm : Std.Symm fun s t : Tree => s.Precedes t ∨ t.Precedes s := ⟨fun _ _ => Or.symm⟩
  have hpairwise := (Parse.pairwise_contents flavor source).imp
    (S := fun s t : Tree => s.Precedes t ∨ t.Precedes s) Or.inl
  exact hpairwise.forall (hcontents (by decide) h) (hcontents (by decide) hstate) hne

/-- **The outline is well-nested.** Whatever errors a document has, its outline has an entry for the
first main block, if there is one, and after it one for each state of the catalog, in order. No state
goes by the name of a main block. Every selection lies in the range of its entry, no two ranges overlap,
and those of the states stand one after the other. -/
theorem outline_well_nested (flavor : Flavor) (source : String) :
    let a := ofSource flavor source
    ∃ main states : List OutlineEntry, a.outline = main ++ states ∧
      List.Forall₂ (fun block e => ∃ keyword, block.child? 0 = some (.token keyword) ∧
          keyword.kind = .keyword .main ∧ e = .ofMain block keyword)
        ((a.parse.tree.nodes .mainBlock).take 1) main ∧
      main = a.outline.filter (·.name == "main") ∧
      states = a.catalog.states.map .ofState ∧
      (∀ e ∈ a.outline, e.range.start ≤ e.selection.start ∧ e.selection.start < e.selection.stop ∧
        e.selection.stop ≤ e.range.stop) ∧
      a.outline.Pairwise (fun e f => e.range.stop ≤ f.range.start ∨ f.range.stop ≤ e.range.start) ∧
      states.Pairwise (fun e f => e.range.stop ≤ f.range.start) := by
  intro a
  have hmain := forall₂_mainEntry flavor source
  have hstates : a.catalog.states.filterMap a.stateEntry? = a.catalog.states.map .ofState :=
    List.filterMap_eq_map_iff_forall_eq_some.mpr fun s hs => stateEntry?_eq flavor source hs
  have hordered : (a.catalog.states.map OutlineEntry.ofState).Pairwise
      fun e f => e.range.stop ≤ f.range.start := by
    refine List.pairwise_map.mpr ?_
    refine (pairwise_block_states flavor source).imp_of_mem fun {s s'} hs hs' h => ?_
    exact (isFor_state flavor source hs).stop_le (isFor_state flavor source hs') h
  have houtline : a.outline = (a.mainBlock?.bind a.mainEntry?).toList ++
      a.catalog.states.map .ofState := by
    rw [outline, hstates]
  refine ⟨_, _, houtline, hmain, ?_, rfl, ?_, ?_, hordered⟩
  · have hkept : (a.mainBlock?.bind a.mainEntry?).toList.filter (·.name == "main") =
        (a.mainBlock?.bind a.mainEntry?).toList := by
      refine List.filter_eq_self.mpr fun e he => ?_
      obtain ⟨block, keyword, -, -, rfl⟩ := of_mem_mainEntry flavor source he
      rfl
    have hdropped : (a.catalog.states.map OutlineEntry.ofState).filter (·.name == "main") = [] := by
      refine List.filter_eq_nil_iff.mpr fun e he hname => ?_
      obtain ⟨s, hs, rfl⟩ := List.mem_map.mp he
      exact name_ne_main flavor source hs (eq_of_beq hname)
    rw [houtline, List.filter_append, hkept, hdropped, List.append_nil]
  · intro e he
    rw [houtline, List.mem_append] at he
    rcases he with he | he
    · obtain ⟨block, keyword, hblock, hchild, rfl⟩ := of_mem_mainEntry flavor source he
      exact (isFor_main flavor source hblock hchild).selection_within
    · obtain ⟨s, hs, rfl⟩ := List.mem_map.mp he
      exact (isFor_state flavor source hs).selection_within
  · rw [houtline, List.pairwise_append]
    refine ⟨?_, hordered.imp .inl, fun e he f hf => ?_⟩
    · cases a.mainBlock?.bind a.mainEntry? with
      | none => exact .nil
      | some e => exact List.pairwise_singleton _ e
    · obtain ⟨block, keyword, hblock, hchild, rfl⟩ := of_mem_mainEntry flavor source he
      obtain ⟨s, hs, rfl⟩ := List.mem_map.mp hf
      have hmainFor := isFor_main flavor source hblock hchild
      have hstateFor := isFor_state flavor source hs
      rcases precedes_or_precedes flavor source hblock hs with h | h
      · exact .inl (hmainFor.stop_le hstateFor h)
      · exact .inr (hstateFor.stop_le hmainFor h)

/-- The main block comes first even if it is found behind a state whose block is not closed. -/
example : (ofSource .official "state A \x7b main \x7b").outline.map (fun e => (e.name, e.range)) =
    [("main", ⟨⟨0, 10⟩, ⟨0, 16⟩⟩), ("A", ⟨⟨0, 0⟩, ⟨0, 9⟩⟩)] := by decide +kernel

end Analysis

end QuestScript
