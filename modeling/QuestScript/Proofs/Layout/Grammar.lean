import QuestScript.Parse
import QuestScript.Proofs.Grammar.Made
import QuestScript.Proofs.Layout.Move

/-! # Parsing moved tokens

The grammar looks at the kinds of tokens only. A piece of grammar is *natural* (`Grammar.IsNatural`) if
it makes of moved tokens what it makes of the tokens, moved; putting natural pieces together gives a
natural piece, so what is made is natural (`Made.isNatural`), and so is the whole grammar. It also tells no
token that it was not given: an error is raised at a token ahead (`offending_mem`). -/

namespace QuestScript

/-- The error at a moved token. -/
def SyntaxError.move (f : Token → Token) (e : SyntaxError) : SyntaxError :=
  ⟨e.recovery, e.offending.map f, e.expected, e.rules⟩

/-- The outcome with its tokens moved. -/
def Outcome.move (f : Token → Token) (o : Outcome) : Outcome :=
  ⟨o.trees.map (Tree.move f), o.rest.map f, o.errors.map (SyntaxError.move f)⟩

variable {f : Token → Token}

@[simp] theorem Outcome.trees_move (o : Outcome) : (o.move f).trees = o.trees.map (Tree.move f) := rfl

@[simp] theorem Outcome.rest_move (o : Outcome) : (o.move f).rest = o.rest.map f := rfl

@[simp] theorem Outcome.errors_move (o : Outcome) :
    (o.move f).errors = o.errors.map (SyntaxError.move f) := rfl

theorem kindAhead_map (hf : Token.KeepsKind f) (ahead : List Token) :
    kindAhead (ahead.map f) = kindAhead ahead := by
  cases ahead with
  | nil => rfl
  | cons t ahead => exact hf.kind t

theorem SyntaxError.raise_map (recovery : Recovery) (kinds : List TokenKind)
    (rules : List NodeKind) (ahead : List Token) :
    raise recovery kinds rules (ahead.map f) = (raise recovery kinds rules ahead).move f := by
  cases ahead <;> rfl

namespace Grammar

/-- The piece makes of moved tokens what it makes of the tokens, moved. -/
def IsNatural (g : Grammar) : Prop :=
  ∀ f, Token.KeepsKind f → ∀ rules ahead, g.run rules (ahead.map f) = (g.run rules ahead).move f

variable {g h : Grammar} {k : TokenKind}

/-! ### Tokens -/

theorem isNatural_next : next.IsNatural := by
  intro f _ rules ahead
  cases ahead <;> rfl

theorem isNatural_optional : (optional k).IsNatural := by
  intro f hf rules ahead
  simp only [optional, kindAhead_map hf]
  split
  · exact isNatural_next f hf rules ahead
  · rfl

theorem isNatural_missing (kinds : List TokenKind) : (missing kinds).IsNatural := by
  intro f _ rules ahead
  simp only [missing, SyntaxError.raise_map]
  rfl

theorem isNatural_expectIn (kinds : List TokenKind) : (expectIn k kinds).IsNatural := by
  intro f hf rules ahead
  match ahead with
  | [] => rfl
  | [t] =>
    simp only [expectIn, List.map_cons, List.map_nil, hf.kind]
    split <;> rfl
  | t :: u :: rest =>
    simp only [expectIn, List.map_cons, hf.kind]
    split
    · rfl
    · split <;> simp [Outcome.move, SyntaxError.move, SyntaxError.raise, skipped]

/-! ### Putting pieces together -/

theorem IsNatural.andThen (hg : g.IsNatural) (hh : h.IsNatural) : (g.andThen h).IsNatural := by
  intro f hf rules ahead
  simp only [Grammar.andThen, hg f hf, Outcome.rest_move, hh f hf]
  simp [Outcome.move]

theorem IsNatural.node (hg : g.IsNatural) (n : NodeKind) : (g.node n).IsNatural := by
  intro f hf rules ahead
  simp only [Grammar.node, hg f hf]
  simp [Outcome.move]

theorem isNatural_byKind {choose : TokenKind → Grammar} (h : ∀ k, (choose k).IsNatural) :
    (byKind choose).IsNatural := by
  intro f hf rules ahead
  simp only [byKind, kindAhead_map hf]
  exact h _ f hf rules ahead

/-! ### Lists -/

section Items
variable {s : Items} {rules : List NodeKind} {t : Token} {others : List Token}

theorem run_item (hg : s.item? t.kind = some g) :
    s.run rules (t :: others) =
      ⟨(g.run rules (t :: others)).trees ++ (s.run rules (g.run rules (t :: others)).rest).trees,
        (s.run rules (g.run rules (t :: others)).rest).rest,
        (g.run rules (t :: others)).errors ++ (s.run rules (g.run rules (t :: others)).rest).errors⟩ := by
  rw [Items.run]
  split
  · rename_i g' hg'
    obtain rfl : g = g' := Option.some.inj (hg.symm.trans hg')
    rfl
  · rename_i hnone
    rw [hnone] at hg
    cases hg

theorem run_closing (hnone : s.item? t.kind = none) (hclosing : s.isClosing t.kind = true) :
    s.run rules (t :: others) = ⟨[], t :: others, []⟩ := by
  rw [Items.run]
  split
  · rename_i g hg
    rw [hnone] at hg
    cases hg
  · rw [if_pos hclosing]

theorem run_stray (hnone : s.item? t.kind = none) (hclosing : ¬ s.isClosing t.kind = true) :
    s.run rules (t :: others) =
      ⟨(t :: others.takeWhile (s.isStray ·.kind)).map skipped ++
          (s.run rules (others.dropWhile (s.isStray ·.kind))).trees,
        (s.run rules (others.dropWhile (s.isStray ·.kind))).rest,
        .raise .mismatched s.expected rules (t :: others) ::
          (s.run rules (others.dropWhile (s.isStray ·.kind))).errors⟩ := by
  rw [Items.run]
  split
  · rename_i g hg
    rw [hnone] at hg
    cases hg
  · rw [if_neg hclosing]

end Items

theorem skipped_move (ts : List Token) : (ts.map f).map skipped = (ts.map skipped).map (Tree.move f) := by
  rw [List.map_map, List.map_map]
  refine List.map_congr_left fun t _ => ?_
  simp [skipped]

/-- **A list of natural items is natural.** -/
theorem isNatural_listOf {s : Items} (h : ∀ k g, s.item? k = some g → g.IsNatural) :
    (listOf s).IsNatural := by
  intro f hf rules ahead
  change s.run rules (ahead.map f) = (s.run rules ahead).move f
  have hstray : ((s.isStray ·.kind) ∘ f) = (s.isStray ·.kind) := by
    funext t
    exact congrArg s.isStray (hf.kind t)
  have htake : ∀ ts : List Token, (ts.map f).takeWhile (s.isStray ·.kind) =
      (ts.takeWhile (s.isStray ·.kind)).map f := fun ts => by
    rw [List.takeWhile_map, hstray]
  have hdrop : ∀ ts : List Token, (ts.map f).dropWhile (s.isStray ·.kind) =
      (ts.dropWhile (s.isStray ·.kind)).map f := fun ts => by
    rw [List.dropWhile_map, hstray]
  fun_induction s.run rules ahead with
  | case1 =>
    rw [List.map_nil, Items.run]
    rfl
  | case2 t others g hg a b ih =>
    have hrun := h _ g hg f hf rules (t :: others)
    rw [List.map_cons] at hrun ⊢
    rw [run_item ((hf.kind t).symm ▸ hg), hrun, Outcome.rest_move, ih]
    simp [Outcome.move, a, b]
  | case3 t others hnone hclosing =>
    rw [← hf.kind t] at hnone hclosing
    exact run_closing hnone hclosing
  | case4 t others hnone hclosing stray b ih =>
    rw [← hf.kind t] at hnone hclosing
    rw [List.map_cons, run_stray hnone hclosing, htake, hdrop, ih, ← List.map_cons, skipped_move,
      ← List.map_cons, SyntaxError.raise_map]
    simp [Outcome.move, stray, b]

/-! ### The whole grammar -/

theorem moreArguments_map (hf : Token.KeepsKind f) (wrapper : NodeKind) (rules : List NodeKind)
    (ahead : List Token) :
    moreArguments wrapper rules (ahead.map f) = (moreArguments wrapper rules ahead).move f := by
  fun_induction moreArguments wrapper rules ahead with
  | case1 => rfl
  | case2 comma hcomma t others ht more ih =>
    rw [List.map_cons, List.map_cons, moreArguments, if_pos ((hf.kind comma).trans hcomma),
      if_pos ((hf.kind t).symm ▸ ht), ih]
    simp [Outcome.move, more, argumentTree, literalTree]
  | case3 comma hcomma t others ht =>
    rw [List.map_cons, List.map_cons, moreArguments, if_pos ((hf.kind comma).trans hcomma),
      if_neg ((hf.kind t).symm ▸ ht)]
    rfl
  | case4 comma hcomma =>
    rw [List.map_cons, List.map_nil, moreArguments, if_pos ((hf.kind comma).trans hcomma)]
    rfl
  | case5 comma ahead hcomma =>
    rw [List.map_cons, moreArguments.eq_def]
    exact if_neg ((hf.kind comma).symm ▸ hcomma)

/-- **What is made is natural.** -/
theorem Made.isNatural (hg : Made g) : g.IsNatural := by
  induction hg with
  | nothing => exact fun _ _ _ _ => rfl
  | next => exact isNatural_next
  | optional k => exact isNatural_optional
  | missing kinds => exact isNatural_missing kinds
  | expectIn k kinds => exact isNatural_expectIn kinds
  | moreArguments wrapper run_eq =>
    intro f hf rules ahead
    rw [run_eq]
    exact moreArguments_map hf wrapper rules ahead
  | andThen _ _ hg hh => exact hg.andThen hh
  | node n _ hg => exact hg.node n
  | byKind _ heach => exact isNatural_byKind heach
  | listOf _ hitem => exact isNatural_listOf hitem

theorem isNatural_blocks {flavor : Flavor} : (blocks flavor).IsNatural := (made_blocks flavor).isNatural

end Grammar

/-! ### Tokens that stay

What a natural piece makes of some tokens stays as it is when all other tokens are moved, because it can be
made before or after the move. So it has no other tokens. -/

/-- Puts every token elsewhere but those in a list. -/
def Token.shift (ts : List Token) (t : Token) : Token :=
  if t ∈ ts then t else { t with offset := t.offset + 1 }

namespace Token
variable {ts : List Token} {t : Token}

theorem keepsKind_shift (ts : List Token) : KeepsKind (shift ts) :=
  ⟨fun t => by rw [shift]; split <;> rfl⟩

theorem shift_eq_iff : shift ts t = t ↔ t ∈ ts := by
  rw [shift]
  split
  · rename_i h
    exact iff_of_true rfl h
  · rename_i h
    exact iff_of_false (fun heq => Nat.succ_ne_self _ (congrArg offset heq)) h

theorem map_shift (ts : List Token) : ts.map (shift ts) = ts := by
  have hstays : ∀ t ∈ ts, shift ts t = id t := fun t ht => shift_eq_iff.mpr ht
  rw [List.map_congr_left hstays, List.map_id]

end Token

/-- What stays when a list is mapped stays itself. -/
theorem eq_of_map_eq_self {α : Type} {g : α → α} {xs : List α} (h : xs.map g = xs) {x : α}
    (hx : x ∈ xs) : g x = x :=
  List.map_inj_left.mp (h.trans (List.map_id xs).symm) x hx

namespace Grammar
variable {g : Grammar}

/-- **An error is raised at a token ahead** or at the end. -/
theorem IsNatural.offending_mem (hg : g.IsNatural) {rules : List NodeKind} {ahead : List Token}
    {e : SyntaxError} (he : e ∈ (g.run rules ahead).errors) {t : Token} (ht : e.offending = some t) :
    t ∈ ahead := by
  have hrun := hg _ (Token.keepsKind_shift ahead) rules ahead
  rw [Token.map_shift] at hrun
  have hmoved : e.move (Token.shift ahead) = e :=
    eq_of_map_eq_self (congrArg Outcome.errors hrun).symm he
  have hoffending := congrArg SyntaxError.offending hmoved
  rw [SyntaxError.move, ht] at hoffending
  exact Token.shift_eq_iff.mp (Option.some.inj hoffending)

end Grammar

end QuestScript
