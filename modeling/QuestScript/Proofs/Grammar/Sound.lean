import QuestScript.Grammar.Document
import QuestScript.Proofs.Grammar.Production

/-! # The parser builds derivations

A piece of grammar *yields* an expression at a kind of token if, with such a token ahead, the trees
it builds without an error are a phrase of the expression. Each way of putting pieces together keeps
this, so each rule's piece of grammar yields the right side of the rule, and a file parsed without errors
is a derivation (`isDerivation_of_errors_eq_nil`). -/

namespace QuestScript.Grammar

/-- With a token of kind `k` ahead, the trees built without an error are a phrase of `e`. -/
def Yields (flavor : Flavor) (k : TokenKind) (g : Grammar) (e : Rhs) : Prop :=
  ∀ rules ahead, kindAhead ahead = k → (g.run rules ahead).errors = [] →
    Phrase flavor e (g.run rules ahead).trees

variable {flavor : Flavor} {k : TokenKind}

/-! ### Tokens -/

theorem yields_nothing : Yields flavor k nothing 1 :=
  fun _ _ _ _ => phrase_one.mpr rfl

theorem yields_missing {kinds : List TokenKind} {e : Rhs} : Yields flavor k (missing kinds) e := by
  intro rules ahead _ h
  simp [missing] at h

theorem yields_next {e : Rhs} (hk : k ≠ .endOfInput)
    (h : ∀ t : Token, t.kind = k → Phrase flavor e [.token t]) : Yields flavor k next e := by
  intro rules ahead ha _
  cases ahead with
  | nil => exact absurd ha.symm hk
  | cons t ahead => exact h t ha

theorem yields_expectIn {j : TokenKind} {kinds : List TokenKind} :
    Yields flavor k (expectIn j kinds) (Rhs.token j) := by
  intro rules ahead _ h
  cases ahead with
  | nil => simp [expectIn] at h
  | cons t ahead =>
    simp only [expectIn] at h ⊢
    split at h
    · rename_i ht
      rw [if_pos ht]
      exact phrase_token.mpr ⟨t, ht, rfl⟩
    · split at h
      · split at h <;> simp at h
      · simp at h

theorem yields_expect {j : TokenKind} : Yields flavor k (expect j) (Rhs.token j) :=
  yields_expectIn

theorem yields_optional {j : TokenKind} :
    Yields flavor k (optional j) (Rhs.token j).optional := by
  intro rules ahead ha _
  rw [phrase_optional]
  simp only [optional]
  split
  · rename_i hj
    cases ahead with
    | nil => exact Or.inl rfl
    | cons t ahead => exact Or.inr (phrase_token.mpr ⟨t, hj, rfl⟩)
  · exact Or.inl rfl

/-! ### Putting pieces together -/

theorem Yields.andThen {g h : Grammar} {e f : Rhs} (hg : Yields flavor k g e)
    (hh : ∀ j, Yields flavor j h f) : Yields flavor k (g.andThen h) (e * f) := by
  intro rules ahead ha herr
  obtain ⟨hge, hhe⟩ := List.append_eq_nil_iff.mp herr
  exact phrase_mul.mpr ⟨_, _, rfl, hg rules ahead ha hge, hh _ rules _ rfl hhe⟩

theorem yields_seq_nil : Yields flavor k (seq []) (Rhs.sequence []) :=
  yields_nothing

theorem Yields.seq {g : Grammar} {gs : List Grammar} {e : Rhs} {es : List Rhs}
    (hg : Yields flavor k g e) (hgs : ∀ j, Yields flavor j (Grammar.seq gs) (Rhs.sequence es)) :
    Yields flavor k (Grammar.seq (g :: gs)) (Rhs.sequence (e :: es)) :=
  hg.andThen hgs

theorem Yields.node {g : Grammar} {n : NodeKind} (hg : Yields flavor k g (production flavor n)) :
    Yields flavor k (g.node n) (Rhs.node n) :=
  fun rules ahead ha herr => phrase_node.mpr ⟨_, rfl, hg (rules ++ [n]) ahead ha herr⟩

theorem Yields.choice {g : Grammar} {e : Rhs} {es : List Rhs} (hg : Yields flavor k g e)
    (he : e ∈ es) : Yields flavor k g (Rhs.choice es) :=
  fun rules ahead ha herr => phrase_choice.mpr ⟨e, he, hg rules ahead ha herr⟩

theorem Yields.mono {g : Grammar} {e f : Rhs} (hg : Yields flavor k g e)
    (h : ∀ ts, Phrase flavor e ts → Phrase flavor f ts) : Yields flavor k g f :=
  fun rules ahead ha herr => h _ (hg rules ahead ha herr)

theorem yields_byKind {choose : TokenKind → Grammar} {e : Rhs}
    (h : Yields flavor k (choose k) e) : Yields flavor k (byKind choose) e := by
  intro rules ahead ha herr
  subst ha
  exact h rules ahead rfl herr

/-- **A list whose items yield an expression yields its repetition.** -/
theorem yields_listOf {s : Items} {e : Rhs}
    (h : ∀ j g, s.item? j = some g → Yields flavor j g e) :
    Yields flavor k (listOf s) e.many := by
  intro rules ahead ha herr
  clear ha
  change (s.run rules ahead).errors = [] at herr
  change Phrase flavor e.many (s.run rules ahead).trees
  fun_induction s.run rules ahead with
  | case1 => exact Phrase.many_nil
  | case2 t others g hg a b ih =>
    obtain ⟨ha, hb⟩ := List.append_eq_nil_iff.mp herr
    exact (h t.kind g hg rules (t :: others) rfl ha).many_append (ih hb)
  | case3 t others hi hc => exact Phrase.many_nil
  | case4 t others hi hc stray b ih => simp at herr

/-! ### Literals and argument lists -/

theorem production_argument : production flavor (argumentKind flavor) = Rhs.node .literal := by
  cases flavor <;> rfl

theorem production_arguments : production flavor .arguments =
    Rhs.sequence [Rhs.node (argumentKind flavor),
      (Rhs.sequence [Rhs.token .comma, Rhs.node (argumentKind flavor)]).many] := by
  cases flavor <;> rfl

theorem production_argumentList : production flavor .argumentList =
    Rhs.sequence [Rhs.token .leftParen, (Rhs.node .arguments).optional, Rhs.token .rightParen] := by
  cases flavor <;> rfl

theorem production_literal : production flavor .literal =
    Rhs.choice [Rhs.token .integer, Rhs.token .string] := by
  cases flavor <;> rfl

theorem phrase_literal {t : Token} (h : t.kind ∈ literalFirst) :
    Phrase flavor (production flavor .literal) [.token t] := by
  rw [production_literal, phrase_choice]
  refine ⟨Rhs.token t.kind, ?_, phrase_token.mpr ⟨t, rfl, rfl⟩⟩
  rcases List.mem_cons.mp h with h | h
  · rw [h]; exact List.mem_cons_self
  · rw [List.mem_singleton.mp h]; exact List.mem_cons_of_mem _ (List.mem_singleton_self _)

theorem phrase_argument {t : Token} (h : t.kind ∈ literalFirst) :
    Phrase flavor (Rhs.node (argumentKind flavor)) [argumentTree (argumentKind flavor) t] := by
  refine phrase_node.mpr ⟨_, rfl, ?_⟩
  rw [production_argument]
  exact phrase_node.mpr ⟨_, rfl, phrase_literal h⟩

theorem yields_literal (h : k ∈ literalFirst) : Yields flavor k literal (Rhs.node .literal) := by
  refine Yields.node (yields_next ?_ fun t ht => phrase_literal (ht ▸ h))
  rintro rfl
  simp [literalFirst] at h

theorem yields_argument (h : k ∈ literalFirst) :
    Yields flavor k (argument (argumentKind flavor)) (Rhs.node (argumentKind flavor)) := by
  refine Yields.node ?_
  rw [production_argument]
  exact yields_literal h

theorem phrase_moreArguments {rules : List NodeKind} {ahead : List Token}
    (h : (moreArguments (argumentKind flavor) rules ahead).errors = []) :
    Phrase flavor (Rhs.sequence [Rhs.token .comma, Rhs.node (argumentKind flavor)]).many
      (moreArguments (argumentKind flavor) rules ahead).trees := by
  fun_induction moreArguments (argumentKind flavor) rules ahead with
  | case1 => exact Phrase.many_nil
  | case2 comma hcomma t others ht more ih =>
    have hfirst : Phrase flavor (Rhs.sequence [Rhs.token .comma, Rhs.node (argumentKind flavor)])
        [.token comma, argumentTree (argumentKind flavor) t] := by
      refine phrase_sequence_cons.mpr ⟨_, _, rfl, phrase_token.mpr ⟨comma, hcomma, rfl⟩, ?_⟩
      exact phrase_sequence_cons.mpr ⟨_, [], rfl, phrase_argument ht, phrase_sequence_nil.mpr rfl⟩
    exact hfirst.many_append (ih h)
  | case3 => simp at h
  | case4 => simp at h
  | case5 => exact Phrase.many_nil

theorem yields_arguments (h : k ∈ literalFirst) :
    Yields flavor k (arguments (argumentKind flavor)) (Rhs.node .arguments) := by
  refine Yields.node ?_
  rw [production_arguments]
  refine (yields_argument h).seq fun j => Yields.seq ?_ fun _ => yields_seq_nil
  exact fun rules ahead _ herr => phrase_moreArguments herr

theorem yields_argumentListBody : Yields flavor k (argumentListBody (argumentKind flavor))
    (Rhs.sequence [(Rhs.node .arguments).optional, Rhs.token .rightParen]) := by
  refine yields_byKind ?_
  split
  · rename_i hk
    have h : Yields flavor k
        (seq [arguments (argumentKind flavor), expectIn .rightParen [.rightParen, .comma]])
        (Rhs.sequence [Rhs.node .arguments, Rhs.token .rightParen]) :=
      (yields_arguments hk).seq fun _ => yields_expectIn.seq fun _ => yields_seq_nil
    refine h.mono fun ts hts => ?_
    obtain ⟨us, vs, rfl, hu, hv⟩ := phrase_sequence_cons.mp hts
    exact phrase_sequence_cons.mpr ⟨us, vs, rfl, phrase_optional.mpr (Or.inr hu), hv⟩
  · refine yields_expectIn.mono fun ts hts => ?_
    refine phrase_sequence_cons.mpr ⟨[], ts, rfl, phrase_optional.mpr (Or.inl rfl), ?_⟩
    exact phrase_sequence_cons.mpr ⟨ts, [], by simp, hts, phrase_sequence_nil.mpr rfl⟩

theorem yields_argumentList :
    Yields flavor k (argumentList (argumentKind flavor)) (Rhs.node .argumentList) := by
  refine yields_byKind ?_
  split
  · refine Yields.node ?_
    rw [production_argumentList]
    refine yields_expect.seq fun j => ?_
    exact (yields_argumentListBody.andThen fun _ => yields_nothing).mono fun _ => phrase_mul_one.mp
  · exact yields_missing

/-! ### Statements -/

theorem yields_description : Yields flavor k description (Rhs.node .description) := by
  refine Yields.node ?_
  cases flavor <;>
    exact yields_expect.seq fun _ => yields_expect.seq fun _ => yields_optional.seq fun _ =>
      yields_seq_nil

theorem yields_officialRule : Yields .official k officialRule (Rhs.node .rule) :=
  Yields.node <| yields_expect.seq fun _ => yields_expect.seq fun _ =>
    yields_argumentList.seq fun _ => yields_expect.seq fun _ => yields_expect.seq fun _ =>
    yields_optional.seq fun _ => yields_seq_nil

theorem yields_officialAction : Yields .official k officialAction (Rhs.node .action) :=
  Yields.node <| yields_expect.seq fun _ => yields_expect.seq fun _ =>
    yields_argumentList.seq fun _ => yields_optional.seq fun _ => yields_seq_nil

theorem yields_expression (h : k ∈ expressionFirst) :
    Yields .eoserv k expression (Rhs.node .expression) := by
  refine Yields.node (yields_byKind ?_)
  have hinvocation : Yields .eoserv k
      (node .invocationExpression (seq [expect .identifier, argumentList (argumentKind .eoserv)]))
      (Rhs.node .invocationExpression) :=
    Yields.node (yields_expect.seq fun _ => yields_argumentList.seq fun _ => yields_seq_nil)
  have hgoto : Yields .eoserv k (node .gotoExpression (seq [keyword .goto, expect .identifier]))
      (Rhs.node .gotoExpression) :=
    Yields.node (yields_expect.seq fun _ => yields_expect.seq fun _ => yields_seq_nil)
  split
  · exact hinvocation.choice (by simp)
  · split
    · exact hgoto.choice (by simp)
    · rename_i hident hkeyword
      refine (yields_literal ?_).choice (by simp)
      simp only [expressionFirst, List.mem_cons, hident, hkeyword, false_or] at h
      simpa [literalFirst] using h

theorem yields_expressions (n : Nat) : Yields .eoserv k (expressions n)
    (Rhs.sequence (List.replicate n (Rhs.node .expression))) := by
  induction n generalizing k with
  | zero => exact yields_nothing
  | succ n ih =>
    refine yields_byKind ?_
    split
    · rename_i hk
      exact (yields_expression hk).andThen fun _ =>
        (ih.andThen fun _ => yields_nothing).mono fun _ => phrase_mul_one.mp
    · exact yields_missing

theorem yields_operandStatement {n : NodeKind} {j : Keyword} {operands : Nat}
    (h : production .eoserv n = Rhs.sequence
      (Rhs.keyword j :: (List.replicate operands (Rhs.node .expression) ++ [Rhs.semicolon]))) :
    Yields .eoserv k (operandStatement n j operands) (Rhs.node n) := by
  refine Yields.node ?_
  rw [h]
  refine yields_expect.seq fun _ => ?_
  refine ((yields_expressions operands).andThen fun _ =>
    (yields_optional (j := .semicolon)).seq fun _ => yields_seq_nil).mono fun ts hts => ?_
  exact phrase_sequence_append.mpr (phrase_mul.mp hts)

theorem yields_statementBody {j : Keyword} {g : Grammar} (h : statementBody? flavor j = some g) :
    Yields flavor k g (production flavor .statement) := by
  cases flavor <;> cases j <;>
    simp only [statementBody?, Option.some.injEq, reduceCtorEq] at h <;> subst h
  · exact yields_description.choice (by simp)
  · exact yields_officialRule.choice (by simp)
  · exact yields_officialAction.choice (by simp)
  · exact yields_description.choice (by simp)
  · exact (yields_operandStatement rfl).choice (by simp)
  · exact (yields_operandStatement rfl).choice (by simp)
  · exact (yields_operandStatement rfl).choice (by simp)
  · exact (yields_operandStatement rfl).choice (by simp)
  · exact (yields_operandStatement rfl).choice (by simp)
  · exact (yields_operandStatement rfl).choice (by simp)

theorem yields_statement {g : Grammar} (h : statement? flavor k = some g) :
    Yields flavor k g (Rhs.node .statement) := by
  cases k <;> simp only [statement?, reduceCtorEq, Option.map_eq_some_iff] at h
  obtain ⟨body, hb, rfl⟩ := h
  exact (yields_statementBody hb).node

/-! ### Documents -/

theorem yields_valuedAttribute {n : NodeKind} {j : Keyword} {v : TokenKind}
    (h : production flavor n = Rhs.sequence [Rhs.keyword j, Rhs.token v, Rhs.semicolon]) :
    Yields flavor k (node n (seq [keyword j, expect v, semicolon])) (Rhs.node n) := by
  refine Yields.node ?_
  rw [h]
  exact yields_expect.seq fun _ => yields_expect.seq fun _ => yields_optional.seq fun _ =>
    yields_seq_nil

theorem yields_flagAttribute {n : NodeKind} {j : Keyword}
    (h : production flavor n = Rhs.sequence [Rhs.keyword j, Rhs.semicolon]) :
    Yields flavor k (node n (seq [keyword j, nothing, semicolon])) (Rhs.node n) := by
  refine Yields.node ?_
  rw [h]
  refine yields_expect.seq fun _ => ?_
  refine (yields_nothing.andThen fun _ =>
    (yields_optional (j := .semicolon)).seq fun _ => yields_seq_nil).mono fun ts hts => ?_
  obtain ⟨us, vs, rfl, hu, hv⟩ := phrase_mul.mp hts
  rw [phrase_one.mp hu]
  exact hv

theorem yields_attribute {j : Keyword} {n : NodeKind} {value : Option TokenKind}
    (h : attribute? j = some (n, value)) :
    Yields flavor k (node n (seq [keyword j, (value.map expect).getD nothing, semicolon]))
      (production flavor .mainAttribute) := by
  cases j <;> simp only [attribute?, Option.some.injEq, Prod.mk.injEq, reduceCtorEq] at h <;>
    obtain ⟨rfl, rfl⟩ := h <;> cases flavor
  · exact (yields_valuedAttribute rfl).choice (by simp)
  · exact (yields_valuedAttribute rfl).choice (by simp)
  · exact (yields_valuedAttribute rfl).choice (by simp)
  · exact (yields_valuedAttribute rfl).choice (by simp)
  · exact (yields_flagAttribute rfl).choice (by simp)
  · exact (yields_flagAttribute rfl).choice (by simp)
  · exact (yields_flagAttribute rfl).choice (by simp)
  · exact (yields_flagAttribute rfl).choice (by simp)
  · exact (yields_flagAttribute rfl).choice (by simp)
  · exact (yields_flagAttribute rfl).choice (by simp)

theorem yields_mainAttribute {g : Grammar} (h : mainAttribute? k = some g) :
    Yields flavor k g (Rhs.node .mainAttribute) := by
  cases k <;> simp only [mainAttribute?, reduceCtorEq, Option.map_eq_some_iff] at h
  obtain ⟨⟨n, value⟩, hn, rfl⟩ := h
  exact (yields_attribute hn).node

theorem yields_mainBlock : Yields flavor k mainBlock (Rhs.node .mainBlock) := by
  refine Yields.node ?_
  cases flavor <;>
    exact yields_expect.seq fun _ => yields_expect.seq fun _ =>
      (yields_listOf fun _ _ h => yields_mainAttribute h).seq fun _ =>
      yields_expect.seq fun _ => yields_seq_nil

theorem yields_stateBlock : Yields flavor k (stateBlock flavor) (Rhs.node .stateBlock) := by
  refine Yields.node ?_
  have h : ∀ j, Yields flavor j (statements flavor) (Rhs.node .statement).many := fun _ =>
    yields_listOf fun _ _ h => yields_statement h
  cases flavor <;>
    exact yields_expect.seq fun _ => yields_expect.seq fun _ => yields_expect.seq fun _ =>
      (h _).seq fun _ => yields_expect.seq fun _ => yields_seq_nil

theorem yields_block {g : Grammar} (h : block? flavor k = some g) :
    Yields flavor k g (Rhs.node .block) := by
  unfold block? at h
  split at h <;> simp only [Option.some.injEq, reduceCtorEq] at h <;> subst h
  · refine Yields.node ?_
    cases flavor <;> exact yields_mainBlock.choice (by simp)
  · refine Yields.node ?_
    cases flavor <;> exact yields_stateBlock.choice (by simp)

theorem yields_blocks : Yields flavor k (blocks flavor) (Rhs.node .block).many :=
  yields_listOf fun _ _ h => yields_block h

/-- **The tree of a file that is parsed without errors is a derivation.** -/
theorem isDerivation_of_errors_eq_nil {rules : List NodeKind} {ahead : List Token}
    (h : ((blocks flavor).run rules ahead).errors = []) :
    (Tree.node .file ((blocks flavor).run rules ahead).trees).IsDerivation flavor := by
  rw [isDerivation_node]
  cases flavor <;> exact yields_blocks rules ahead rfl h

end QuestScript.Grammar
