import QuestScript.Proofs.Layout.Grammar
import QuestScript.Proofs.Token.Order

/-! # Errors are raised in order

The parser never goes back, so it raises its errors in the order of the tokens at which it raises them. What
a piece of grammar does to the tokens ahead is told as a run (`Raises`): from some tokens ahead it goes on to
later ones, each error is raised at the token that is then ahead, and what is left is later still. Runs follow
each other (`Raises.append`), so whatever is made of pieces that take tokens is such a run (`Made.raises`), and
the errors of a document are in order (`Parse.pairwise_offendingIndex`). -/

namespace QuestScript

/-- The errors are raised one after the other on the way from the tokens `ahead` to those left. -/
inductive Raises : (ahead : List Token) → List SyntaxError → (rest : List Token) → Prop
  | done {ahead rest : List Token} (later : rest <:+ ahead) : Raises ahead [] rest
  | error {ahead here rest : List Token} {e : SyntaxError} {errors : List SyntaxError}
    (later : here <:+ ahead) (offending : e.offending = here.head?) (others : Raises here errors rest) :
    Raises ahead (e :: errors) rest

namespace Raises
variable {ahead mid rest : List Token} {errors others : List SyntaxError}

theorem of_suffix (hsuffix : mid <:+ ahead) (h : Raises mid errors rest) : Raises ahead errors rest := by
  cases h with
  | done later => exact .done (later.trans hsuffix)
  | error later offending others => exact .error (later.trans hsuffix) offending others

/-- **Runs follow each other.** -/
theorem append (h : Raises ahead errors mid) (h' : Raises mid others rest) :
    Raises ahead (errors ++ others) rest := by
  induction h with
  | done later => exact h'.of_suffix later
  | error later offending _ ih => exact .error later offending (ih h')

theorem raise (recovery : Recovery) (kinds : List TokenKind) (rules : List NodeKind)
    (h : Raises ahead errors rest) :
    Raises ahead (.raise recovery kinds rules ahead :: errors) rest :=
  .error (List.suffix_refl ahead) rfl h

/-- Each error is raised at one of the tokens ahead, or at their end. -/
theorem exists_suffix (h : Raises ahead errors rest) {e : SyntaxError} (he : e ∈ errors) :
    ∃ here, here <:+ ahead ∧ e.offending = here.head? := by
  induction h with
  | done => cases he
  | @error ahead here rest e' errors later offending _ ih =>
    rcases List.mem_cons.mp he with rfl | he
    · exact ⟨here, later, offending⟩
    · obtain ⟨there, hthere, hoffending⟩ := ih he
      exact ⟨there, hthere.trans later, hoffending⟩

end Raises

namespace Grammar

/-- The errors of the piece are raised one after the other. -/
def RaisesInOrder (g : Grammar) : Prop :=
  ∀ rules ahead, Raises ahead (g.run rules ahead).errors (g.run rules ahead).rest

/-! ### Pieces -/

theorem raisesInOrder_next : next.RaisesInOrder := by
  intro rules ahead
  cases ahead with
  | nil => exact .done (List.suffix_refl [])
  | cons t ahead => exact .done (List.suffix_cons t ahead)

theorem raisesInOrder_optional (k : TokenKind) : (optional k).RaisesInOrder := by
  intro rules ahead
  simp only [optional]
  split
  · exact raisesInOrder_next rules ahead
  · exact .done (List.suffix_refl ahead)

theorem raisesInOrder_expectIn (k : TokenKind) (kinds : List TokenKind) :
    (expectIn k kinds).RaisesInOrder := by
  intro rules ahead
  have hmissing : ∀ ts, Raises ts [.raise .missing kinds rules ts] ts := fun ts =>
    .raise _ _ _ (.done (List.suffix_refl ts))
  match ahead with
  | [] => exact hmissing []
  | [t] =>
    simp only [expectIn]
    split
    · exact .done (List.suffix_cons t [])
    · exact hmissing [t]
  | t :: u :: rest =>
    simp only [expectIn]
    split
    · exact .done (List.suffix_cons t (u :: rest))
    · split
      · exact .raise _ _ _ (.done ((List.suffix_cons u rest).trans (List.suffix_cons t (u :: rest))))
      · exact hmissing (t :: u :: rest)

theorem raises_moreArguments (wrapper : NodeKind) (rules : List NodeKind) (ahead : List Token) :
    Raises ahead (moreArguments wrapper rules ahead).errors (moreArguments wrapper rules ahead).rest := by
  fun_induction moreArguments wrapper rules ahead with
  | case1 => exact .done (List.suffix_refl [])
  | case2 comma _ t others _ more ih =>
    exact ih.of_suffix ((List.suffix_cons t others).trans (List.suffix_cons comma (t :: others)))
  | case3 comma _ t others _ =>
    exact .error (List.suffix_cons comma (t :: others)) rfl (.done (List.suffix_refl _))
  | case4 comma _ => exact .error (List.suffix_cons comma []) rfl (.done (List.suffix_refl []))
  | case5 comma ahead _ => exact .done (List.suffix_refl _)

theorem raises_items {s : Items} (hitem : ∀ k g, s.item? k = some g → g.RaisesInOrder)
    (rules : List NodeKind) (ahead : List Token) :
    Raises ahead (s.run rules ahead).errors (s.run rules ahead).rest := by
  fun_induction s.run rules ahead with
  | case1 => exact .done (List.suffix_refl [])
  | case2 t others g hg a b ih => exact (hitem _ g hg rules (t :: others)).append ih
  | case3 t others _ _ => exact .done (List.suffix_refl _)
  | case4 t others _ _ stray b ih =>
    have hdrop : others.dropWhile (s.isStray ·.kind) <:+ t :: others :=
      (List.dropWhile_suffix _).trans (List.suffix_cons t others)
    exact .raise _ _ _ (ih.of_suffix hdrop)

/-! ### The whole grammar -/

/-- **Whatever is made of pieces raises its errors in order.** -/
theorem Made.raises {g : Grammar} (hg : Made g) : g.RaisesInOrder := by
  induction hg with
  | nothing => exact fun _ ahead => .done (List.suffix_refl ahead)
  | next => exact raisesInOrder_next
  | optional k => exact raisesInOrder_optional k
  | missing kinds => exact fun _ ahead => .raise _ _ _ (.done (List.suffix_refl ahead))
  | expectIn k kinds => exact raisesInOrder_expectIn k kinds
  | moreArguments wrapper run_eq =>
    intro rules ahead
    rw [run_eq]
    exact raises_moreArguments wrapper rules ahead
  | andThen _ _ hg hh => exact fun rules ahead => (hg rules ahead).append (hh rules _)
  | node n _ hg => exact fun rules ahead => hg (rules ++ [n]) ahead
  | byKind _ heach => exact fun rules ahead => heach (kindAhead ahead) rules ahead
  | listOf _ hitem => exact raises_items hitem

end Grammar

namespace Parse
variable {flavor : Flavor} {source : String} {ahead rest : List Token}

/-- The index of the token ahead, or that of the end of the document. -/
def aheadIndex (p : Parse) (ahead : List Token) : Nat := (ahead.head?.map (·.index)).getD p.endIndex

theorem offendingIndex_of_raised {p : Parse} {e : SyntaxError} (h : e.offending = ahead.head?) :
    p.offendingIndex e = p.aheadIndex ahead := by
  rw [offendingIndex, h, aheadIndex]

theorem index_le_endIndex {t : Token} (ht : t ∈ (parse flavor source).stream.tokens) :
    t.index ≤ (parse flavor source).endIndex := by
  have hget : (TokenStream.ofSource flavor source).tokens[t.index]? = some t := TokenStream.get?_index ht
  obtain ⟨hlt, -⟩ := List.getElem?_eq_some_iff.mp hget
  have hend : (parse flavor source).endIndex = (TokenStream.ofSource flavor source).tokens.length - 1 := rfl
  omega

/-- Whoever goes on does not go back. -/
theorem aheadIndex_mono (hahead : ahead <:+ (parse flavor source).stream.significant)
    (hlater : rest <:+ ahead) :
    (parse flavor source).aheadIndex ahead ≤ (parse flavor source).aheadIndex rest := by
  have hsub : ahead.Sublist (parse flavor source).stream.tokens :=
    hahead.sublist.trans (List.filter_sublist.trans List.filter_sublist)
  have hsorted : ahead.Pairwise (·.index < ·.index) :=
    (TokenStream.pairwise_index_tokens flavor source).sublist hsub
  cases ahead with
  | nil => rw [List.suffix_nil.mp hlater]
  | cons t ahead =>
    cases rest with
    | nil => exact index_le_endIndex (hsub.subset List.mem_cons_self)
    | cons u rest =>
      rcases List.mem_cons.mp (hlater.subset List.mem_cons_self) with rfl | hu
      · exact Nat.le_refl _
      · exact Nat.le_of_lt ((List.pairwise_cons.mp hsorted).1 u hu)

theorem pairwise_of_raises {errors : List SyntaxError}
    (hahead : ahead <:+ (parse flavor source).stream.significant) (h : Raises ahead errors rest) :
    errors.Pairwise fun d e =>
      (parse flavor source).offendingIndex d ≤ (parse flavor source).offendingIndex e := by
  induction h with
  | done => exact List.Pairwise.nil
  | error later offending others ih =>
    have hhere := later.trans hahead
    refine List.pairwise_cons.mpr ⟨fun e he => ?_, ih hhere⟩
    obtain ⟨there, hthere, hoffending⟩ := others.exists_suffix he
    rw [offendingIndex_of_raised offending, offendingIndex_of_raised hoffending]
    exact aheadIndex_mono hhere hthere

/-- **The errors of a document are raised in order.** -/
theorem pairwise_offendingIndex (flavor : Flavor) (source : String) :
    (parse flavor source).errors.Pairwise fun d e =>
      (parse flavor source).offendingIndex d ≤ (parse flavor source).offendingIndex e :=
  pairwise_of_raises (List.suffix_refl _) ((Grammar.made_blocks flavor).raises [.file] _)

end Parse

end QuestScript
