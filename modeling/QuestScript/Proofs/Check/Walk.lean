import QuestScript.Diagnostic.Semantic
import QuestScript.Proofs.Token.Place
import QuestScript.Proofs.Token.Whole
import QuestScript.Proofs.Tree.Hidden

/-! # Walking a tree

The checker knows where the tokens of its document are (`Checker.Knows`), so the span of every tree
made of them is found (`spanOf_eq`). What a walk over places finds is put together from what the
walks over parts of them find (`Walks`), and below most nodes there is nothing to find but the
spelling of keywords (`walks_quiet`). -/

namespace QuestScript

/-! ### Known tokens -/

/-- The span from the first to the last leaf of a tree. -/
def Tree.extent (t : Tree) : Span :=
  ⟨(t.leaves.head?.map (·.span.start)).getD default, (t.leaves.getLast?.map (·.span.stop)).getD default⟩

@[simp] theorem Tree.extent_token (t : Token) : (Tree.token t).extent = t.span := by
  simp [extent]

namespace Checker

/-- The token is a significant one of the document, and spelled as its kind demands. -/
structure Knows (c : Checker) (t : Token) : Prop where
  located : c.parse.locate t = .ok t
  significant : t.isSignificant = true
  word : t.kind.isWord = true → Lexeme.IsWordText t.text.toList
  spelled : ∀ k, t.kind = .keyword k → Ascii.sameWord k.spelling.toList t.text.toList = true
  wordKind : t.kind.isWord = true → Lexeme.wordKind c.parse.flavor t.text.toList = t.kind

variable {c : Checker}

theorem knows_of_mem {flavor : Flavor} {source : String}
    (hc : c.parse = QuestScript.parse flavor source) {t : Token}
    (ht : t ∈ (QuestScript.parse flavor source).stream.significant) : c.Knows t := by
  obtain ⟨hdoc, hsig⟩ := List.mem_filter.mp ht
  have hlocated : c.parse.locate t = .ok t := by
    have hfound : (QuestScript.parse flavor source).tokenOf? t = some t :=
      TokenStream.atOffset?_offset (TokenStream.mem_tokens_of_mem_document hdoc)
    rw [hc, Parse.locate, hfound]
  have hword : t.kind.isWord = true → Lexeme.IsWordText t.text.toList ∧
      t.kind = Lexeme.wordKind flavor t.text.toList :=
    fun hk => (TokenStream.isWhole_lexeme ht).isWordText hk
  refine ⟨hlocated, hsig, fun hk => (hword hk).1, fun k hk => ?_, fun hk => ?_⟩
  · have hkind := (hword (by rw [hk]; rfl)).2
    rw [hk] at hkind
    exact (Lexeme.sameWord_of_wordKind hkind.symm).2
  · rw [hc]
    exact (hword hk).2.symm

theorem Knows.spanOf {t : Token} (h : c.Knows t) : c.parse.spanOf (.token t) = .ok t.span := by
  have hfirst : (Tree.token t).firstToken? = some t := by
    simp [Tree.firstToken?, h.significant]
  have hlast : (Tree.token t).lastToken? = some t := by
    simp [Tree.lastToken?, h.significant]
  rw [Parse.spanOf, Parse.bounds, hfirst, hlast]
  simp only [h.located]
  rfl

theorem find?_eq_head? {β : Type} {p : β → Bool} {xs : List β} (h : ∀ x ∈ xs, p x = true) :
    xs.find? p = xs.head? := by
  cases xs with
  | nil => rfl
  | cons x xs => rw [List.find?_cons_of_pos (h x (by simp)), List.head?_cons]

/-- **The span of a tree of known tokens is found.** -/
theorem spanOf_eq {t : Tree} (hne : t.leaves ≠ []) (h : ∀ u ∈ t.leaves, c.Knows u) :
    c.parse.spanOf t = .ok t.extent := by
  have hfirst : t.firstToken? = t.leaves.head? :=
    find?_eq_head? fun u hu => (h u hu).significant
  have hlast : t.lastToken? = t.leaves.getLast? := by
    rw [← List.head?_reverse]
    exact find?_eq_head? fun u hu => (h u (List.mem_reverse.mp hu)).significant
  have hhead := List.head?_eq_some_head hne
  have hgetLast := List.getLast?_eq_some_getLast hne
  rw [Parse.spanOf, Parse.bounds, hfirst, hlast, Tree.extent, hhead, hgetLast]
  simp only [(h _ (List.head_mem hne)).located, (h _ (List.getLast_mem hne)).located]
  rfl

/-! ### Keywords -/

/-- What is found at a token because of its spelling. -/
def keywordFindings (c : Checker) (t : Token) : List Finding :=
  if !t.kind.isKeyword || t.text == lowercase t.text || c.casings.contains t.text then []
  else [⟨t.span, .keywordCasing t.text,
    [respell s!"Change casing to '{lowercase t.text}'" (lowercase t.text) t.span]⟩]

theorem checkKeyword_eq {t : Token} (h : c.Knows t) (path : List Frame) :
    c.checkKeyword ⟨.token t, path⟩ t = ⟨c.keywordFindings t, none⟩ := by
  unfold checkKeyword keywordFindings
  dsimp only
  split
  · rfl
  · rw [h.spanOf]
    rfl

/-! ### Walks -/

/-- The walk over the places finds these findings and then goes on, where `seen` and `after` tell
whether a main block has been seen. -/
def Walks (c : Checker) (seen : Bool) (ps : List Place) (fs : List Finding) (after : Bool) : Prop :=
  ∀ rest, c.checkPlaces seen (ps ++ rest) = (⟨fs, none⟩ : Report).andThen (c.checkPlaces after rest)

variable {seen after last : Bool} {p : Place} {ps qs : List Place} {fs gs : List Finding}

theorem walks_nil : Walks c seen [] [] seen := fun _ => rfl

theorem Walks.append (h : Walks c seen ps fs after) (h' : Walks c after qs gs last) :
    Walks c seen (ps ++ qs) (fs ++ gs) last := by
  intro rest
  rw [List.append_assoc, h, h']
  simp [Report.andThen]

theorem walks_place (h : c.checkPlace seen p = ⟨fs, none⟩) :
    Walks c seen [p] fs (seen || p.focus.isNode .mainBlock) := by
  intro rest
  rw [List.singleton_append, checkPlaces, h]

theorem Walks.cons (h : c.checkPlace seen p = ⟨fs, none⟩) (hp : p.focus.isNode .mainBlock = false)
    (h' : Walks c seen ps gs after) : Walks c seen (p :: ps) (fs ++ gs) after := by
  have hplace := walks_place h
  rw [hp, Bool.or_false] at hplace
  exact hplace.append h'

theorem aborted_checkMainExists (c : Checker) : c.checkMainExists.aborted = none := by
  unfold checkMainExists
  split
  · rfl
  · dsimp only
    split <;> rfl

/-! ### Quiet trees -/

end Checker

/-- Nothing is checked at nodes of the kind, and no token below them is a reference. -/
def NodeKind.isQuiet : NodeKind → Bool
  | .mainBlock | .stateBlock | .gotoExpression | .invocationExpression | .rule | .action | .error =>
    false
  | _ => true

mutual
/-- All nodes of the tree are of quiet kinds. -/
def Tree.isQuiet : Tree → Bool
  | token _ => true
  | node k cs => k.isQuiet && areQuiet cs
/-- All nodes of the trees are of quiet kinds. -/
def Tree.areQuiet : List Tree → Bool
  | [] => true
  | c :: cs => c.isQuiet && areQuiet cs
end

theorem classify_of_isQuiet {flavor : Flavor} {t : Tree} {f : Frame} {path : List Frame}
    (h : f.kind.isQuiet = true) : classify flavor ⟨t, f :: path⟩ = none := by
  obtain ⟨k, before, after⟩ := f
  change k.isQuiet = true at h
  cases k <;> first | (cases flavor <;> rfl) | cases h

namespace Checker
variable {c : Checker}

theorem checkPlace_token {t : Token} {path : List Frame} (h : c.Knows t) (seen : Bool)
    (hclass : classify c.parse.flavor ⟨.token t, path⟩ = none) :
    c.checkPlace seen ⟨.token t, path⟩ = ⟨c.keywordFindings t, none⟩ := by
  simp only [checkPlace, checkReference, hclass, checkKeyword_eq h]
  rfl

theorem checkPlace_quiet {k : NodeKind} (h : k.isQuiet = true) (seen : Bool) (cs : List Tree)
    (path : List Frame) : c.checkPlace seen ⟨.node k cs, path⟩ = ⟨[], none⟩ := by
  cases k <;> first | rfl | cases h

theorem isQuiet_ne_mainBlock {k : NodeKind} (h : k.isQuiet = true) (cs : List Tree) :
    (Tree.node k cs).isNode .mainBlock = false := by
  cases k <;> first | rfl | cases h

mutual
/-- **Below quiet nodes only the spelling of keywords is looked at.** -/
theorem walks_quiet : ∀ (t : Tree) (seen : Bool) (f : Frame) (path : List Frame),
    t.isQuiet = true → f.kind.isQuiet = true → (∀ u ∈ t.leaves, c.Knows u) →
      Walks c seen (Place.within (f :: path) t) (t.leaves.flatMap c.keywordFindings) seen
  | .token t, seen, f, path, _, hf, hknown => by
    rw [Place.within, Tree.leaves_token, List.flatMap_cons]
    have hclass : classify c.parse.flavor ⟨.token t, f :: path⟩ = none := classify_of_isQuiet hf
    exact Walks.cons (checkPlace_token (hknown t (by simp)) seen hclass) rfl walks_nil
  | .node k cs, seen, f, path, ht, _, hknown => by
    rw [Tree.isQuiet, Bool.and_eq_true] at ht
    rw [Place.within, Tree.leaves_node]
    have hcs := walks_quietAll cs seen k (f :: path) [] ht.1 ht.2 (by simpa using hknown)
    exact Walks.cons (checkPlace_quiet ht.1 seen cs _) (isQuiet_ne_mainBlock ht.1 cs) hcs
theorem walks_quietAll : ∀ (cs : List Tree) (seen : Bool) (k : NodeKind) (path : List Frame)
    (before : List Tree), k.isQuiet = true → Tree.areQuiet cs = true →
      (∀ u ∈ Tree.leavesOf cs, c.Knows u) →
      Walks c seen (Place.withinAll k path before cs)
        ((Tree.leavesOf cs).flatMap c.keywordFindings) seen
  | [], seen, k, path, before, _, _, _ => by
    rw [Place.withinAll, Tree.leavesOf_nil]
    exact walks_nil
  | t :: cs, seen, k, path, before, hk, hcs, hknown => by
    rw [Tree.areQuiet, Bool.and_eq_true] at hcs
    rw [Tree.leavesOf_cons] at hknown
    rw [Place.withinAll, Tree.leavesOf_cons, List.flatMap_append]
    have ht := walks_quiet t seen ⟨k, before, cs⟩ path hcs.1 hk fun u hu => hknown u (by simp [hu])
    have hmore := walks_quietAll cs seen k path (t :: before) hk hcs.2 fun u hu =>
      hknown u (by simp [hu])
    exact ht.append hmore
end

end Checker

end QuestScript
