import QuestScript.Proofs.Grammar.Tolerant
import QuestScript.Proofs.Lossless

/-! # The parser builds tolerated trees

A piece of grammar *builds* an expression at a kind of token if, with such a token ahead, its trees
match the expression, whatever comes after. Each way of putting pieces together keeps this, and each
rule's piece builds the lenient right side of the rule. So the tree of every document has the shape
that is left after errors (`parse_tolerated`). -/

namespace QuestScript

/-- The kinds of the trees match an expression, and the trees are tolerated. -/
structure Fits (flavor : Flavor) (e : Rhs) (ts : List Tree) : Prop where
  kinds : ts.map Tree.kind ∈ e.matches'
  each : ∀ t ∈ ts, t.IsTolerated flavor

section Fits
variable {flavor : Flavor} {e f : Rhs} {es fs : List Rhs} {us vs : List Tree}
open Rhs Leniency

theorem fits_nil (h : [] ∈ e.matches') : Fits flavor e [] := ⟨h, by simp⟩

theorem fits_token (t : Token) : Fits flavor (Rhs.token t.kind) [.token t] :=
  ⟨mem_token.mpr rfl, List.forall_mem_singleton.mpr (.token t)⟩

theorem fits_node {n : NodeKind} {cs : List Tree} (h : Fits flavor (tolerant flavor n) cs) :
    Fits flavor (Rhs.node n) [.node n cs] :=
  ⟨mem_node.mpr rfl, List.forall_mem_singleton.mpr (.node h.kinds h.each)⟩

theorem Fits.mono (h : Fits flavor e us) (hle : ∀ w ∈ e.matches', w ∈ f.matches') :
    Fits flavor f us :=
  ⟨hle _ h.kinds, h.each⟩

theorem Fits.optional (h : Fits flavor e us) : Fits flavor e.optional us :=
  h.mono fun _ hw => mem_optional.mpr (.inr hw)

theorem Fits.choice (h : Fits flavor e us) (he : e ∈ es) : Fits flavor (Rhs.choice es) us :=
  h.mono fun _ hw => mem_choice.mpr ⟨e, he, hw⟩

theorem Fits.append (hu : Fits flavor e us) (hv : Fits flavor f vs) :
    Fits flavor (e * f) (us ++ vs) := by
  refine ⟨mem_mul.mpr ⟨_, hu.kinds, _, hv.kinds, List.map_append⟩, fun t ht => ?_⟩
  rcases List.mem_append.mp ht with ht | ht
  · exact hu.each t ht
  · exact hv.each t ht

theorem Fits.sequence (hu : Fits flavor e us) (hv : Fits flavor (Rhs.sequence es) vs) :
    Fits flavor (Rhs.sequence (e :: es)) (us ++ vs) :=
  hu.append hv

theorem Fits.last (h : Fits flavor e us) : Fits flavor (Rhs.sequence [e]) us :=
  h.mono fun w hw => mem_sequence_cons.mpr ⟨w, hw, [], mem_sequence_nil.mpr rfl, by simp⟩

theorem fits_many_nil : Fits flavor e.many [] := fits_nil (mem_many.mpr ⟨[], rfl, by simp⟩)

/-- Skipped tokens may stand anywhere in a list. -/
theorem fits_items_skipped {n : NodeKind} (ts : List Token)
    (h : Fits flavor (lenient.items n) us) :
    Fits flavor (lenient.items n) (ts.map Grammar.skipped ++ us) := by
  refine ⟨mem_items.mpr fun x hx => ?_, List.forall_mem_append.mpr ⟨fun t ht => ?_, h.each⟩⟩
  · rw [List.map_append, List.mem_append, List.map_map] at hx
    rcases hx with hx | hx
    · obtain ⟨t, -, rfl⟩ := List.mem_map.mp hx
      exact .inr rfl
    · exact mem_items.mp h.kinds x hx
  · obtain ⟨t, -, rfl⟩ := List.mem_map.mp ht
    exact .skipped t

end Fits

namespace Grammar

/-- With a token of kind `k` ahead, the trees built are tolerated and match `e`. -/
def Builds (flavor : Flavor) (k : TokenKind) (g : Grammar) (e : Rhs) : Prop :=
  ∀ rules ahead, kindAhead ahead = k → Fits flavor e (g.run rules ahead).trees

variable {flavor : Flavor} {j k : TokenKind}
open Rhs Leniency

/-! ### Tokens -/

theorem builds_nothing : Builds flavor k nothing 1 := fun _ _ _ => fits_nil (mem_one.mpr rfl)

theorem builds_missing {kinds : List TokenKind} {e : Rhs} (h : [] ∈ e.matches') :
    Builds flavor k (missing kinds) e :=
  fun _ _ _ => fits_nil h

theorem builds_optional : Builds flavor k (optional j) (Rhs.token j).optional := by
  intro rules ahead ha
  simp only [optional]
  split
  · rename_i hj
    cases ahead with
    | nil => exact fits_nil (mem_optional.mpr (.inl rfl))
    | cons t ahead => exact (hj ▸ fits_token t : Fits flavor (Rhs.token j) [.token t]).optional
  · exact fits_nil (mem_optional.mpr (.inl rfl))

/-- **A demanded token** is there, or is missing, or has one skipped token before it. -/
theorem builds_expectIn {kinds : List TokenKind} :
    Builds flavor k (expectIn j kinds) (lenient.demanded j) := by
  intro rules ahead ha
  have hnone : Fits flavor (lenient.demanded j) [] := fits_nil (mem_demanded.mpr (.inl rfl))
  cases ahead with
  | nil => exact hnone
  | cons t ahead =>
    simp only [expectIn]
    split
    · rename_i ht
      exact (ht ▸ fits_token t : Fits flavor (Rhs.token j) [.token t]).mono fun w hw =>
        mem_demanded.mpr (.inr (.inl (mem_token.mp hw)))
    · cases ahead with
      | nil => exact hnone
      | cons u rest =>
        dsimp only
        split
        · rename_i hu
          refine ⟨mem_demanded.mpr (.inr (.inr ?_)), ?_⟩
          · rw [← hu]
            rfl
          · exact List.forall_mem_cons.mpr ⟨.skipped t, List.forall_mem_singleton.mpr (.token u)⟩
        · exact hnone

theorem builds_expect : Builds flavor k (expect j) (lenient.demanded j) := builds_expectIn

theorem builds_expect_ahead (hk : k ≠ .endOfInput) : Builds flavor k (expect k) (Rhs.token k) := by
  intro rules ahead ha
  cases ahead with
  | nil => exact absurd ha.symm hk
  | cons t ahead =>
    change t.kind = k at ha
    subst ha
    simp only [expect, expectIn, if_true]
    exact fits_token t

/-! ### Putting pieces together -/

section Pieces
variable {g h : Grammar} {gs : List Grammar} {e f : Rhs} {es : List Rhs}

theorem Builds.andThen (hg : Builds flavor k g e) (hh : ∀ j, Builds flavor j h f) :
    Builds flavor k (g.andThen h) (e * f) :=
  fun rules ahead ha => (hg rules ahead ha).append (hh _ rules _ rfl)

theorem builds_seq_nil : Builds flavor k (seq []) (sequence []) := builds_nothing

theorem Builds.seq (hg : Builds flavor k g e)
    (hgs : ∀ j, Builds flavor j (Grammar.seq gs) (sequence es)) :
    Builds flavor k (Grammar.seq (g :: gs)) (sequence (e :: es)) :=
  hg.andThen hgs

theorem Builds.single (hg : Builds flavor k g e) : Builds flavor k (Grammar.seq [g]) e := by
  intro rules ahead ha
  change Fits flavor e ((g.run rules ahead).trees ++ [])
  rw [List.append_nil]
  exact hg rules ahead ha

theorem Builds.node {n : NodeKind} (hg : Builds flavor k g (tolerant flavor n)) :
    Builds flavor k (g.node n) (Rhs.node n) :=
  fun rules ahead ha => fits_node (hg (rules ++ [n]) ahead ha)

theorem Builds.choice (hg : Builds flavor k g e) (he : e ∈ es) :
    Builds flavor k g (Rhs.choice es) :=
  fun rules ahead ha => (hg rules ahead ha).choice he

theorem Builds.optional (hg : Builds flavor k g e) : Builds flavor k g e.optional :=
  fun rules ahead ha => (hg rules ahead ha).optional

theorem builds_byKind {choose : TokenKind → Grammar} (h : Builds flavor k (choose k) e) :
    Builds flavor k (byKind choose) e := by
  intro rules ahead ha
  subst ha
  exact h rules ahead rfl

/-- **A list builds its items**, and skips what is none of them. -/
theorem builds_listOf {s : Items} {n : NodeKind}
    (h : ∀ j g, s.item? j = some g → Builds flavor j g (Rhs.node n)) :
    Builds flavor k (listOf s) (lenient.items n) := by
  intro rules ahead ha
  clear ha
  change Fits flavor (lenient.items n) (s.run rules ahead).trees
  have hnone : Fits flavor (lenient.items n) [] := fits_nil (mem_items.mpr (by simp))
  fun_induction s.run rules ahead with
  | case1 => exact hnone
  | case2 t others g hg a b ih =>
    have ha := h t.kind g hg rules (t :: others) rfl
    refine ⟨mem_items.mpr fun x hx => ?_, List.forall_mem_append.mpr ⟨ha.each, ih.each⟩⟩
    rw [List.map_append, List.mem_append, mem_node.mp ha.kinds] at hx
    rcases hx with hx | hx
    · exact .inl (List.mem_singleton.mp hx)
    · exact mem_items.mp ih.kinds x hx
  | case3 t others hi hc => exact hnone
  | case4 t others hi hc stray b ih => exact fits_items_skipped _ ih

end Pieces

/-! ### Literals and argument lists -/

theorem fits_literal {t : Token} (h : t.kind ∈ literalFirst) :
    Fits flavor (Rhs.node .literal) [literalTree t] := by
  refine fits_node ?_
  have hrule : tolerant flavor .literal = Rhs.choice [Rhs.token .integer, Rhs.token .string] := by
    cases flavor <;> rfl
  rw [hrule]
  refine (fits_token t).choice ?_
  rcases List.mem_cons.mp h with h | h
  · rw [h]
    exact List.mem_cons_self
  · rw [List.mem_singleton.mp h]
    exact List.mem_cons_of_mem _ (List.mem_singleton_self _)

theorem fits_argument {t : Token} (h : t.kind ∈ literalFirst) :
    Fits flavor (Rhs.node (argumentKind flavor)) [argumentTree (argumentKind flavor) t] := by
  refine fits_node ?_
  cases flavor <;> exact fits_literal h

theorem builds_literal (h : k ∈ literalFirst) : Builds flavor k literal (Rhs.node .literal) := by
  intro rules ahead ha
  cases ahead with
  | nil =>
    change TokenKind.endOfInput = k at ha
    subst ha
    simp [literalFirst] at h
  | cons t ahead =>
    change t.kind = k at ha
    exact fits_literal (ha ▸ h)

theorem builds_argument (h : k ∈ literalFirst) :
    Builds flavor k (argument (argumentKind flavor)) (Rhs.node (argumentKind flavor)) := by
  refine Builds.node ?_
  cases flavor <;> exact builds_literal h

/-- The right side of the rule of arguments, after the first of them. -/
def moreArgumentsRhs (flavor : Flavor) : Rhs :=
  sequence [many (sequence [Rhs.token .comma, Rhs.node (argumentKind flavor)]),
    Rhs.optional (Rhs.token .comma)]

/-- Arguments may end in a comma. -/
theorem fits_lastComma {us : List Tree} (h : Fits flavor (Rhs.optional (Rhs.token .comma)) us) :
    Fits flavor (moreArgumentsRhs flavor) us :=
  fits_many_nil.sequence h.last

theorem fits_comma {comma : Token} (h : comma.kind = .comma) :
    Fits flavor (Rhs.token .comma) [.token comma] :=
  h ▸ fits_token comma

theorem fits_moreArguments_cons {us vs : List Tree}
    (hu : Fits flavor (sequence [Rhs.token .comma, Rhs.node (argumentKind flavor)]) us)
    (hv : Fits flavor (moreArgumentsRhs flavor) vs) :
    Fits flavor (moreArgumentsRhs flavor) (us ++ vs) := by
  obtain ⟨v, hv₁, w, hw, hvw⟩ := mem_sequence_cons.mp hv.kinds
  obtain ⟨rest, rfl, hrest⟩ := mem_many.mp hv₁
  refine ⟨mem_sequence_cons.mpr ⟨us.map Tree.kind ++ rest.flatten, ?_, w, hw, ?_⟩,
    List.forall_mem_append.mpr ⟨hu.each, hv.each⟩⟩
  · exact mem_many.mpr ⟨us.map Tree.kind :: rest, List.flatten_cons.symm,
      List.forall_mem_cons.mpr ⟨hu.kinds, hrest⟩⟩
  · rw [List.map_append, hvw, List.append_assoc]

theorem fits_moreArguments (rules : List NodeKind) (ahead : List Token) :
    Fits flavor (moreArgumentsRhs flavor)
      (Grammar.moreArguments (argumentKind flavor) rules ahead).trees := by
  have hnone : Fits flavor (Rhs.optional (Rhs.token .comma)) [] :=
    fits_nil (mem_optional.mpr (.inl rfl))
  fun_induction Grammar.moreArguments (argumentKind flavor) rules ahead with
  | case1 => exact fits_lastComma hnone
  | case2 comma hcomma t others ht more ih =>
    exact fits_moreArguments_cons ((fits_comma hcomma).sequence (fits_argument ht).last) ih
  | case3 comma hcomma => exact fits_lastComma (fits_comma hcomma).optional
  | case4 comma hcomma => exact fits_lastComma (fits_comma hcomma).optional
  | case5 => exact fits_lastComma hnone

theorem builds_arguments (h : k ∈ literalFirst) :
    Builds flavor k (arguments (argumentKind flavor)) (Rhs.node .arguments) := by
  have hrule : tolerant flavor .arguments =
      Rhs.node (argumentKind flavor) * moreArgumentsRhs flavor := by
    cases flavor <;> rfl
  refine Builds.node ?_
  rw [hrule]
  exact (builds_argument h).andThen fun _ =>
    Builds.single fun rules ahead _ => fits_moreArguments rules ahead

theorem builds_argumentListBody : Builds flavor k (argumentListBody (argumentKind flavor))
    (sequence [Rhs.optional (Rhs.node .arguments), lenient.demanded .rightParen]) := by
  refine builds_byKind ?_
  split
  · rename_i hk
    exact (builds_arguments hk).optional.seq fun _ => builds_expectIn.seq fun _ => builds_seq_nil
  · intro rules ahead ha
    exact (fits_nil (mem_optional.mpr (.inl rfl))).sequence (builds_expectIn rules ahead ha).last

theorem builds_argumentList :
    Builds flavor k (argumentList (argumentKind flavor)) lenient.argumentList := by
  refine builds_byKind ?_
  split
  · rename_i hk
    subst hk
    refine Builds.optional (Builds.node ?_)
    have hrule : tolerant flavor .argumentList = sequence [Rhs.token .leftParen,
        Rhs.optional (Rhs.node .arguments), lenient.demanded .rightParen] := by
      cases flavor <;> rfl
    rw [hrule]
    exact (builds_expect_ahead (by simp)).andThen fun _ => builds_argumentListBody.single
  · exact builds_missing (mem_optional.mpr (.inl rfl))

/-! ### Statements

A statement is run only where its keyword is ahead, so the keyword is never missing. -/

theorem builds_leader {j : Keyword} :
    Builds flavor (.keyword j) (keyword j) (Rhs.keyword j) :=
  builds_expect_ahead (by simp)

theorem builds_semicolon : Builds flavor k semicolon Rhs.semicolon := builds_optional

theorem builds_description :
    Builds flavor (.keyword .description) description (Rhs.node .description) := by
  refine Builds.node ?_
  cases flavor <;>
    exact builds_leader.seq fun _ => builds_expect.seq fun _ => builds_semicolon.seq fun _ =>
      builds_seq_nil

theorem builds_officialRule : Builds .official (.keyword .rule) officialRule (Rhs.node .rule) :=
  Builds.node <| builds_leader.seq fun _ => builds_expect.seq fun _ =>
    builds_argumentList.seq fun _ => builds_expect.seq fun _ => builds_expect.seq fun _ =>
    builds_semicolon.seq fun _ => builds_seq_nil

theorem builds_officialAction :
    Builds .official (.keyword .action) officialAction (Rhs.node .action) :=
  Builds.node <| builds_leader.seq fun _ => builds_expect.seq fun _ =>
    builds_argumentList.seq fun _ => builds_semicolon.seq fun _ => builds_seq_nil

theorem builds_expression (h : k ∈ expressionFirst) :
    Builds .eoserv k expression (Rhs.node .expression) := by
  refine Builds.node (builds_byKind ?_)
  split
  · rename_i hk
    subst hk
    have hinvocation : Builds .eoserv .identifier
        (node .invocationExpression (seq [expect .identifier, argumentList (argumentKind .eoserv)]))
        (Rhs.node .invocationExpression) :=
      Builds.node <| (builds_expect_ahead (by simp)).seq fun _ =>
        builds_argumentList.seq fun _ => builds_seq_nil
    exact hinvocation.choice (by simp)
  · split
    · rename_i hk
      subst hk
      have hgoto : Builds .eoserv (.keyword .goto)
          (node .gotoExpression (seq [keyword .goto, expect .identifier]))
          (Rhs.node .gotoExpression) :=
        Builds.node <| builds_leader.seq fun _ => builds_expect.seq fun _ => builds_seq_nil
      exact hgoto.choice (by simp)
    · rename_i hident hkeyword
      refine (builds_literal ?_).choice (by simp)
      simp only [expressionFirst, List.mem_cons, hident, hkeyword, false_or] at h
      simpa [literalFirst] using h

/-- **Operands that are missing are the last ones.** -/
theorem builds_expressions (n : Nat) : Builds .eoserv k (expressions n) (upTo n) := by
  induction n generalizing k with
  | zero => exact builds_nothing
  | succ n ih =>
    refine builds_byKind ?_
    split
    · rename_i hk
      exact ((builds_expression hk).andThen fun _ => ih.single).optional
    · exact builds_missing (mem_optional.mpr (.inl rfl))

theorem builds_operandStatement {n : NodeKind} {j : Keyword} {operands : Nat}
    (h : tolerant .eoserv n = sequence [Rhs.keyword j, upTo operands, Rhs.semicolon]) :
    Builds .eoserv (.keyword j) (operandStatement n j operands) (Rhs.node n) := by
  refine Builds.node ?_
  rw [h]
  exact builds_leader.seq fun _ => (builds_expressions operands).seq fun _ =>
    builds_semicolon.seq fun _ => builds_seq_nil

theorem builds_statementBody {j : Keyword} {g : Grammar} (h : statementBody? flavor j = some g) :
    Builds flavor (.keyword j) g (tolerant flavor .statement) := by
  cases flavor <;> cases j <;>
    simp only [statementBody?, Option.some.injEq, reduceCtorEq] at h <;> subst h
  · exact builds_description.choice (by simp)
  · exact builds_officialRule.choice (by simp)
  · exact builds_officialAction.choice (by simp)
  · exact builds_description.choice (by simp)
  · exact (builds_operandStatement rfl).choice (by simp)
  · exact (builds_operandStatement rfl).choice (by simp)
  · exact (builds_operandStatement rfl).choice (by simp)
  · exact (builds_operandStatement rfl).choice (by simp)
  · exact (builds_operandStatement rfl).choice (by simp)
  · exact (builds_operandStatement rfl).choice (by simp)

theorem builds_statement {g : Grammar} (h : statement? flavor k = some g) :
    Builds flavor k g (Rhs.node .statement) := by
  cases k <;> simp only [statement?, reduceCtorEq, Option.map_eq_some_iff] at h
  obtain ⟨body, hb, rfl⟩ := h
  exact (builds_statementBody hb).node

/-! ### Documents -/

theorem builds_valuedAttribute {n : NodeKind} {j : Keyword} {v : TokenKind}
    (h : tolerant flavor n = sequence [Rhs.keyword j, lenient.demanded v, Rhs.semicolon]) :
    Builds flavor (.keyword j) (node n (seq [keyword j, expect v, semicolon])) (Rhs.node n) := by
  refine Builds.node ?_
  rw [h]
  exact builds_leader.seq fun _ => builds_expect.seq fun _ => builds_semicolon.seq fun _ =>
    builds_seq_nil

theorem builds_flagAttribute {n : NodeKind} {j : Keyword}
    (h : tolerant flavor n = sequence [Rhs.keyword j, Rhs.semicolon]) :
    Builds flavor (.keyword j) (node n (seq [keyword j, nothing, semicolon])) (Rhs.node n) := by
  refine Builds.node ?_
  rw [h]
  -- `nothing` stands where the value of the other attributes does and builds no tree.
  exact fun rules ahead ha =>
    (builds_leader.seq fun _ => builds_semicolon.seq fun _ => builds_seq_nil) rules ahead ha

theorem builds_attribute {j : Keyword} {n : NodeKind} {value : Option TokenKind}
    (h : attribute? j = some (n, value)) :
    Builds flavor (.keyword j) (node n (seq [keyword j, (value.map expect).getD nothing, semicolon]))
      (tolerant flavor .mainAttribute) := by
  cases j <;> simp only [attribute?, Option.some.injEq, Prod.mk.injEq, reduceCtorEq] at h <;>
    obtain ⟨rfl, rfl⟩ := h <;> cases flavor
  · exact (builds_valuedAttribute rfl).choice (by simp)
  · exact (builds_valuedAttribute rfl).choice (by simp)
  · exact (builds_valuedAttribute rfl).choice (by simp)
  · exact (builds_valuedAttribute rfl).choice (by simp)
  · exact (builds_flagAttribute rfl).choice (by simp)
  · exact (builds_flagAttribute rfl).choice (by simp)
  · exact (builds_flagAttribute rfl).choice (by simp)
  · exact (builds_flagAttribute rfl).choice (by simp)
  · exact (builds_flagAttribute rfl).choice (by simp)
  · exact (builds_flagAttribute rfl).choice (by simp)

theorem builds_mainAttribute {g : Grammar} (h : mainAttribute? k = some g) :
    Builds flavor k g (Rhs.node .mainAttribute) := by
  cases k <;> simp only [mainAttribute?, reduceCtorEq, Option.map_eq_some_iff] at h
  obtain ⟨⟨n, value⟩, hn, rfl⟩ := h
  exact (builds_attribute hn).node

theorem builds_mainBlock : Builds flavor (.keyword .main) mainBlock (Rhs.node .mainBlock) := by
  refine Builds.node ?_
  cases flavor <;>
    exact builds_leader.seq fun _ => builds_expect.seq fun _ =>
      (builds_listOf fun _ _ h => builds_mainAttribute h).seq fun _ =>
      builds_expect.seq fun _ => builds_seq_nil

theorem builds_stateBlock :
    Builds flavor (.keyword .state) (stateBlock flavor) (Rhs.node .stateBlock) := by
  refine Builds.node ?_
  have h : ∀ j, Builds flavor j (statements flavor) (lenient.items .statement) := fun _ =>
    builds_listOf fun _ _ h => builds_statement h
  cases flavor <;>
    exact builds_leader.seq fun _ => builds_expect.seq fun _ => builds_expect.seq fun _ =>
      (h _).seq fun _ => builds_expect.seq fun _ => builds_seq_nil

theorem builds_block {g : Grammar} (h : block? flavor k = some g) :
    Builds flavor k g (Rhs.node .block) := by
  unfold block? at h
  split at h <;> simp only [Option.some.injEq, reduceCtorEq] at h <;> subst h
  · refine Builds.node ?_
    cases flavor <;> exact builds_mainBlock.choice (by simp)
  · refine Builds.node ?_
    cases flavor <;> exact builds_stateBlock.choice (by simp)

theorem builds_blocks : Builds flavor k (blocks flavor) (lenient.items .block) :=
  builds_listOf fun _ _ h => builds_block h

end Grammar

namespace Parse
variable (flavor : Flavor) (source : String)

theorem isTolerated_tree : (parse flavor source).tree.IsTolerated flavor := by
  have hblocks : Fits flavor (Leniency.lenient.items .block)
      ((Grammar.blocks flavor).run [.file] (parse flavor source).stream.significant).trees :=
    Grammar.builds_blocks _ _ rfl
  have hrule : tolerant flavor .file = Leniency.lenient.items .block := by cases flavor <;> rfl
  exact .node (hrule ▸ hblocks.kinds) hblocks.each

/-- **The tree of a document has the shape that is left after errors**, whatever is wrong with the
document. Its nodes spell out the rules of the documented grammar, read leniently: so there are only
blocks and skipped tokens in a file, wrappers are around one node, what starts with a keyword has it
as its first child, and a state has at most one name. -/
theorem parse_tolerated :
    (∀ n, production flavor n = ruleOf .strict flavor n) ∧
      (parse flavor source).fullTree.withoutHidden.kind = .node .file ∧
      (parse flavor source).fullTree.withoutHidden.IsTolerated flavor ∧
      ∀ u ∈ (parse flavor source).fullTree.withoutHidden.subtrees, u.HasShape := by
  rw [withoutHidden_fullTree]
  have htree := isTolerated_tree flavor source
  exact ⟨production_eq flavor, rfl, htree, fun u hu => (htree.subtrees u hu).hasShape⟩

end Parse

end QuestScript
