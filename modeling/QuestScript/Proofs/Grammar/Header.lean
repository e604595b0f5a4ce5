import QuestScript.Proofs.Lossless
import QuestScript.Proofs.Tree.Nested
import QuestScript.Symbol.Catalog

/-! # Headers of states

Where the tokens ahead hold the header of a state (`Header`), a piece of grammar leaves the header to
what follows, opens the state's block with it, or skips its keyword in front of the name
(`Grammar.Spares`). The last is done only by a rule that still demands a name of its own, and with an
error at the keyword. Each way of putting pieces together keeps this, so whatever errors a document
has, no other state is lost (`Parse.header_survives`). -/

namespace QuestScript

/-! ### Headers -/

/-- The tokens with which the block of a state starts. -/
structure Header where
  /-- The keyword. -/
  keyword : Token
  /-- The state's name. -/
  name : Token
  /-- The brace that opens the block. -/
  brace : Token
  keyword_kind : keyword.kind = .keyword .state
  name_kind : name.kind = .identifier
  brace_kind : brace.kind = .leftBrace

/-- The rules that demand a name, which may be spelled after a stray token. -/
def namesDemanded : Flavor → List NodeKind
  | .official => [.stateBlock, .rule, .action]
  | .eoserv => [.stateBlock, .gotoExpression]

namespace Header
variable (h : Header) (flavor : Flavor)

/-- The tokens of the header and those after it. -/
def tokens (after : List Token) : List Token := h.keyword :: h.name :: h.brace :: after

/-- A block starts with the header's keyword and name. -/
def Opens (ts : List Tree) : Prop :=
  ∃ cs, .node .stateBlock (.token h.keyword :: .token h.name :: cs) ∈ Tree.subtreesOf ts

/-- The header's keyword is skipped, with an error, in front of a name that the innermost rule
demands. -/
def IsSkipped (ts : List Tree) (errors : List SyntaxError) : Prop :=
  Grammar.skipped h.keyword ∈ Tree.subtreesOf ts ∧
    ∃ e ∈ errors, e.recovery = .extraneous ∧ e.offending = some h.keyword ∧
      e.expected = [.identifier] ∧ ∃ n ∈ e.rules.getLast?, n ∈ namesDemanded flavor

/-- The outcome leaves the header, opens a block with it or skips its keyword. -/
def Survives (after : List Token) (o : Outcome) : Prop :=
  (∃ before, o.rest = before ++ h.tokens after) ∨ h.Opens o.trees ∨ h.IsSkipped flavor o.trees o.errors

variable {h flavor} {after before ahead : List Token} {o : Outcome} {t : Token}

theorem survives_of_rest (before : List Token) (hrest : o.rest = before ++ h.tokens after) :
    h.Survives flavor after o :=
  .inl ⟨before, hrest⟩

/-- What becomes of the header in one outcome becomes of it in another that holds more. -/
theorem Survives.mono {o' : Outcome} (ho : h.Survives flavor after o) (hrest : o'.rest = o.rest)
    (htrees : Tree.subtreesOf o.trees ⊆ Tree.subtreesOf o'.trees) (herrors : o.errors ⊆ o'.errors) :
    h.Survives flavor after o' := by
  rcases ho with ⟨before, ho⟩ | ⟨cs, ho⟩ | ⟨ho, e, he, hraised⟩
  · exact survives_of_rest before (hrest.trans ho)
  · exact .inr (.inl ⟨cs, htrees ho⟩)
  · exact .inr (.inr ⟨htrees ho, e, herrors he, hraised⟩)

theorem Survives.append {a b : Outcome} (ha : h.Survives flavor after a)
    (hb : ∀ before, a.rest = before ++ h.tokens after → h.Survives flavor after b) :
    h.Survives flavor after ⟨a.trees ++ b.trees, b.rest, a.errors ++ b.errors⟩ := by
  rcases ha with ⟨before, hrest⟩ | ⟨cs, hcs⟩ | ⟨hskipped, e, he, hraised⟩
  · refine (hb before hrest).mono rfl ?_ (List.subset_append_right _ _)
    rw [Tree.subtreesOf_append]
    exact List.subset_append_right _ _
  · refine .inr (.inl ⟨cs, ?_⟩)
    rw [Tree.subtreesOf_append]
    exact List.mem_append_left _ hcs
  · refine .inr (.inr ⟨?_, e, List.mem_append_left _ he, hraised⟩)
    rw [Tree.subtreesOf_append]
    exact List.mem_append_left _ hskipped

theorem exists_before (hahead : before ++ h.tokens after = t :: ahead) (ht : t.kind ≠ .keyword .state) :
    ∃ others, before = t :: others ∧ ahead = others ++ h.tokens after := by
  cases before with
  | nil =>
    obtain ⟨rfl, -⟩ := List.cons.inj hahead
    exact absurd h.keyword_kind ht
  | cons u others =>
    obtain ⟨rfl, rfl⟩ := List.cons.inj hahead
    exact ⟨others, rfl, rfl⟩

theorem ne_nil : before ++ h.tokens after ≠ [] := by
  simp [tokens]

end Header

/-! ### Pieces that spare a header -/

namespace Grammar
open Header

/-- Run in a rule for `n` where a token of kind `k` is ahead of a header, or starts it, the piece
leaves the header, opens a block with it or skips its keyword. -/
def Spares (h : Header) (flavor : Flavor) (after : List Token) (n : NodeKind) (k : TokenKind)
    (g : Grammar) : Prop :=
  ∀ rules before, rules.getLast? = some n → kindAhead (before ++ h.tokens after) = k →
    h.Survives flavor after (g.run rules (before ++ h.tokens after))

variable {h : Header} {flavor : Flavor} {after : List Token} {n m : NodeKind} {j k : TokenKind}

/-! ### Tokens -/

theorem spares_nothing : Spares h flavor after n k nothing := fun _ _ _ _ => survives_of_rest _ rfl

theorem spares_missing {kinds : List TokenKind} : Spares h flavor after n k (missing kinds) :=
  fun _ _ _ _ => survives_of_rest _ rfl

theorem spares_next (hk : k ≠ .keyword .state) : Spares h flavor after n k next := by
  intro rules before _ ha
  cases before with
  | nil => exact absurd (ha.symm.trans h.keyword_kind) hk
  | cons t others => exact survives_of_rest _ rfl

theorem spares_optional (hj : j ≠ .keyword .state) : Spares h flavor after n k (optional j) := by
  intro rules before hrules ha
  simp only [optional]
  split
  · rename_i hahead
    exact spares_next hj rules before hrules hahead
  · exact survives_of_rest _ rfl

/-- **A demanded token other than a name** is taken from before the header. -/
theorem spares_expectIn {kinds : List TokenKind} (hstate : j ≠ .keyword .state)
    (hname : j ≠ .identifier) : Spares h flavor after n k (expectIn j kinds) := by
  intro rules before _ _
  rcases before with _ | ⟨t, _ | ⟨u, others⟩⟩
  · have hkeyword : ¬ h.keyword.kind = j := fun hj => hstate (hj ▸ h.keyword_kind)
    have hnext : ¬ h.name.kind = j := fun hj => hname (hj ▸ h.name_kind)
    refine survives_of_rest [] ?_
    simp only [expectIn, tokens, List.nil_append, if_neg hkeyword, if_neg hnext]
  · have hkeyword : ¬ h.keyword.kind = j := fun hj => hstate (hj ▸ h.keyword_kind)
    simp only [expectIn, tokens, List.singleton_append, if_neg hkeyword]
    split
    · exact survives_of_rest [] rfl
    · exact survives_of_rest [t] rfl
  · simp only [expectIn, List.cons_append]
    split
    · exact survives_of_rest (u :: others) rfl
    · split
      · exact survives_of_rest _ rfl
      · exact survives_of_rest (t :: u :: others) rfl

/-- **A demanded name** is taken from before the header, or it is the name of the state after the
skipped keyword. -/
theorem spares_name (hn : n ∈ namesDemanded flavor) :
    Spares h flavor after n k (expect .identifier) := by
  intro rules before hrules _
  have hkeyword : ¬ h.keyword.kind = .identifier := by simp [h.keyword_kind]
  rcases before with _ | ⟨t, _ | ⟨u, others⟩⟩
  · simp only [expect, expectIn, tokens, List.nil_append, if_neg hkeyword, if_pos h.name_kind]
    refine .inr (.inr ⟨Tree.mem_subtreesOf_of_mem List.mem_cons_self, _, List.mem_singleton_self _,
      rfl, rfl, rfl, n, hrules, hn⟩)
  · simp only [expect, expectIn, tokens, List.singleton_append, if_neg hkeyword]
    split
    · exact survives_of_rest [] rfl
    · exact survives_of_rest [t] rfl
  · simp only [expect, expectIn, List.cons_append]
    split
    · exact survives_of_rest (u :: others) rfl
    · split
      · exact survives_of_rest _ rfl
      · exact survives_of_rest (t :: u :: others) rfl

theorem spares_expect_ahead (hk : k ≠ .keyword .state) : Spares h flavor after n k (expect k) := by
  intro rules before _ ha
  cases before with
  | nil => exact absurd (ha.symm.trans h.keyword_kind) hk
  | cons t others =>
    change t.kind = k at ha
    simp only [expect, expectIn, List.cons_append, if_pos ha]
    exact survives_of_rest _ rfl

/-! ### Putting pieces together -/

section Pieces
variable {g g' : Grammar} {gs : List Grammar}

theorem Spares.andThen (hg : Spares h flavor after n k g) (hg' : ∀ j, Spares h flavor after n j g') :
    Spares h flavor after n k (g.andThen g') := by
  intro rules before hrules ha
  refine (hg rules before hrules ha).append fun rest hrest => ?_
  rw [hrest]
  exact hg' _ rules rest hrules rfl

theorem spares_seq_nil : Spares h flavor after n k (seq []) := spares_nothing

theorem Spares.seq (hg : Spares h flavor after n k g)
    (hgs : ∀ j, Spares h flavor after n j (Grammar.seq gs)) :
    Spares h flavor after n k (Grammar.seq (g :: gs)) :=
  hg.andThen hgs

theorem Spares.node (hg : Spares h flavor after n k g) : Spares h flavor after m k (g.node n) := by
  intro rules before _ ha
  refine (hg (rules ++ [n]) before List.getLast?_concat ha).mono rfl (fun u hu => ?_)
    (List.Subset.refl _)
  simp only [Grammar.node, Tree.subtreesOf, List.append_nil]
  exact Tree.mem_subtrees_node.mpr (.inr hu)

theorem spares_byKind {choose : TokenKind → Grammar} (hg : Spares h flavor after n k (choose k)) :
    Spares h flavor after n k (byKind choose) := by
  intro rules before hrules ha
  subst ha
  exact hg rules before hrules rfl

/-- **A list spares the header** if its items do and it does not skip keywords of states. -/
theorem spares_listOf {s : Items} (hstate : s.isStray (.keyword .state) = false)
    (hitem : ∀ j g, s.item? j = some g → Spares h flavor after n j g) :
    Spares h flavor after n k (listOf s) := by
  intro rules before hrules ha
  clear ha
  change h.Survives flavor after (s.run rules (before ++ h.tokens after))
  generalize hahead : before ++ h.tokens after = ahead
  fun_induction s.run rules ahead generalizing before with
  | case1 => exact absurd hahead ne_nil
  | case2 t others g hg a b ih =>
    have hfirst := hitem t.kind g hg rules before hrules (by rw [hahead]; rfl)
    rw [hahead] at hfirst
    exact hfirst.append fun rest hrest => ih rest hrest.symm
  | case3 t others hi hc => exact survives_of_rest _ hahead.symm
  | case4 t others hi hc stray b ih =>
    have ht : t.kind ≠ .keyword .state := by
      intro ht
      simp [Items.isStray, ← ht, hi, hc] at hstate
    obtain ⟨more, -, rfl⟩ := exists_before hahead ht
    have hheader : (h.tokens after).dropWhile (s.isStray ·.kind) = h.tokens after := by
      rw [tokens, List.dropWhile_cons_of_neg (by rw [h.keyword_kind, hstate]; simp)]
    have hdrop : (more ++ h.tokens after).dropWhile (s.isStray ·.kind) =
        more.dropWhile (s.isStray ·.kind) ++ h.tokens after := by
      rw [List.dropWhile_append, hheader]
      split
      · rename_i hempty
        rw [List.isEmpty_iff.mp hempty, List.nil_append]
      · rfl
    refine (ih _ hdrop.symm).mono rfl ?_ (List.subset_cons_self _ _)
    rw [Tree.subtreesOf_append]
    exact List.subset_append_right _ _

end Pieces

/-! ### Literals and argument lists -/

section Arguments
variable {wrapper : NodeKind}

theorem literalFirst_ne_state (hk : k ∈ literalFirst) : k ≠ .keyword .state := by
  rintro rfl
  simp [literalFirst] at hk

theorem spares_literal (hk : k ∈ literalFirst) : Spares h flavor after n k literal :=
  (spares_next (literalFirst_ne_state hk)).node

theorem spares_moreArguments (rules : List NodeKind) (before : List Token) :
    h.Survives flavor after (moreArguments wrapper rules (before ++ h.tokens after)) := by
  generalize hahead : before ++ h.tokens after = ahead
  fun_induction moreArguments wrapper rules ahead generalizing before with
  | case1 => exact absurd hahead ne_nil
  | case2 comma hcomma t others ht more ih =>
    obtain ⟨_, rfl, hothers⟩ := exists_before hahead (by simp [hcomma])
    obtain ⟨others, rfl, rfl⟩ := exists_before hothers.symm (literalFirst_ne_state ht)
    refine (ih others rfl).mono rfl (fun u hu => ?_) (List.Subset.refl _)
    simp only [Tree.subtreesOf, List.mem_append]
    exact .inr (.inr hu)
  | case3 comma hcomma t others ht =>
    obtain ⟨rest, rfl, hrest⟩ := exists_before hahead (by simp [hcomma])
    exact survives_of_rest _ hrest
  | case4 comma hcomma =>
    obtain ⟨rest, rfl, hrest⟩ := exists_before hahead (by simp [hcomma])
    exact absurd hrest.symm ne_nil
  | case5 => exact survives_of_rest _ hahead.symm

theorem spares_arguments (hk : k ∈ literalFirst) :
    Spares h flavor after n k (arguments wrapper) :=
  Spares.node <| (spares_literal hk).node.seq fun _ =>
    Spares.seq (fun rules before _ _ => spares_moreArguments rules before) fun _ => spares_seq_nil

theorem spares_argumentList : Spares h flavor after n k (argumentList wrapper) := by
  refine spares_byKind ?_
  split
  · rename_i hk
    subst hk
    refine Spares.node <| (spares_expect_ahead (by simp)).seq fun j =>
      Spares.seq (spares_byKind ?_) fun _ => spares_seq_nil
    split
    · rename_i hj
      exact (spares_arguments hj).seq fun _ =>
        (spares_expectIn (by simp) (by simp)).seq fun _ => spares_seq_nil
    · exact spares_expectIn (by simp) (by simp)
  · exact spares_missing

end Arguments

/-! ### Statements -/

theorem spares_semicolon : Spares h flavor after n k semicolon := spares_optional (by simp)

theorem spares_leader {j : Keyword} (hj : j ≠ .state) :
    Spares h flavor after n (.keyword j) (keyword j) :=
  spares_expect_ahead (by simpa using hj)

theorem spares_description : Spares h flavor after n (.keyword .description) description :=
  Spares.node <| (spares_leader (by simp)).seq fun _ =>
    (spares_expectIn (by simp) (by simp)).seq fun _ => spares_semicolon.seq fun _ => spares_seq_nil

theorem spares_officialRule : Spares h .official after n (.keyword .rule) officialRule :=
  Spares.node <| (spares_leader (by simp)).seq fun _ => (spares_name (by simp [namesDemanded])).seq
    fun _ => spares_argumentList.seq fun _ => (spares_expectIn (by simp) (by simp)).seq fun _ =>
    (spares_name (by simp [namesDemanded])).seq fun _ => spares_semicolon.seq fun _ => spares_seq_nil

theorem spares_officialAction : Spares h .official after n (.keyword .action) officialAction :=
  Spares.node <| (spares_leader (by simp)).seq fun _ => (spares_name (by simp [namesDemanded])).seq
    fun _ => spares_argumentList.seq fun _ => spares_semicolon.seq fun _ => spares_seq_nil

theorem spares_expression (hk : k ∈ expressionFirst) : Spares h .eoserv after n k expression := by
  refine Spares.node (spares_byKind ?_)
  split
  · rename_i hidentifier
    subst hidentifier
    exact Spares.node <| (spares_expect_ahead (by simp)).seq fun _ =>
      spares_argumentList.seq fun _ => spares_seq_nil
  · split
    · rename_i _ hgoto
      subst hgoto
      exact Spares.node <| (spares_leader (by simp)).seq fun _ =>
        (spares_name (by simp [namesDemanded])).seq fun _ => spares_seq_nil
    · rename_i hidentifier hgoto
      refine spares_literal ?_
      simpa [expressionFirst, literalFirst, hidentifier, hgoto] using hk

theorem spares_expressions (operands : Nat) :
    Spares h .eoserv after n k (expressions operands) := by
  induction operands generalizing k with
  | zero => exact spares_nothing
  | succ operands ih =>
    refine spares_byKind ?_
    split
    · rename_i hk
      exact (spares_expression hk).seq fun _ => ih.seq fun _ => spares_seq_nil
    · exact spares_missing

theorem spares_operandStatement {j : Keyword} (hj : j ≠ .state) (operands : Nat) :
    Spares h .eoserv after n (.keyword j) (operandStatement m j operands) :=
  Spares.node <| (spares_leader hj).seq fun _ => (spares_expressions operands).seq fun _ =>
    spares_semicolon.seq fun _ => spares_seq_nil

theorem spares_statement {g : Grammar} (hg : statement? flavor k = some g) :
    Spares h flavor after n k g := by
  cases k <;> simp only [statement?, reduceCtorEq, Option.map_eq_some_iff] at hg
  rename_i j
  obtain ⟨body, hbody, rfl⟩ := hg
  refine Spares.node ?_
  cases flavor <;> cases j <;>
    simp only [statementBody?, Option.some.injEq, reduceCtorEq] at hbody <;> subst hbody
  · exact spares_description
  · exact spares_officialRule
  · exact spares_officialAction
  · exact spares_description
  · exact spares_operandStatement (by simp) _
  · exact spares_operandStatement (by simp) _
  · exact spares_operandStatement (by simp) _
  · exact spares_operandStatement (by simp) _
  · exact spares_operandStatement (by simp) _
  · exact spares_operandStatement (by simp) _

/-! ### Documents -/

theorem spares_mainAttribute {g : Grammar} (hg : mainAttribute? k = some g) :
    Spares h flavor after n k g := by
  cases k <;> simp only [mainAttribute?, reduceCtorEq, Option.map_eq_some_iff] at hg
  rename_i j
  obtain ⟨⟨m, value⟩, hvalue, rfl⟩ := hg
  have hleader : j ≠ .state := by
    rintro rfl
    simp [attribute?] at hvalue
  have hexpect : ∀ i, Spares h flavor after m i ((value.map expect).getD nothing) := by
    intro i
    cases j <;> simp only [attribute?, Option.some.injEq, Prod.mk.injEq, reduceCtorEq] at hvalue <;>
      obtain ⟨-, rfl⟩ := hvalue <;>
      first | exact spares_nothing | exact spares_expectIn (by simp) (by simp)
  exact Spares.node <| Spares.node <| (spares_leader hleader).seq fun _ => (hexpect _).seq fun _ =>
    spares_semicolon.seq fun _ => spares_seq_nil

theorem spares_mainBlock : Spares h flavor after n (.keyword .main) mainBlock :=
  Spares.node <| (spares_leader (by simp)).seq fun _ =>
    (spares_expectIn (by simp) (by simp)).seq fun _ =>
    (spares_listOf rfl fun _ _ hg => spares_mainAttribute hg).seq fun _ =>
    (spares_expectIn (by simp) (by simp)).seq fun _ => spares_seq_nil

theorem run_seq_expect {t : Token} (ht : t.kind = k) (gs : List Grammar) (rules : List NodeKind)
    (ahead : List Token) : (seq (expect k :: gs)).run rules (t :: ahead) =
      ⟨.token t :: ((seq gs).run rules ahead).trees, ((seq gs).run rules ahead).rest,
        ((seq gs).run rules ahead).errors⟩ := by
  simp only [seq, andThen, expect, expectIn, if_pos ht, List.singleton_append, List.nil_append]

/-- What follows the keyword of a state. -/
def stateContents (flavor : Flavor) : List Grammar :=
  [expect .identifier, expect .leftBrace, statements flavor, expect .rightBrace]

theorem run_stateBlock {t : Token} (ht : t.kind = .keyword .state) (rules : List NodeKind)
    (ahead : List Token) : (stateBlock flavor).run rules (t :: ahead) =
      let contents := (seq (stateContents flavor)).run (rules ++ [.stateBlock]) ahead
      ⟨[.node .stateBlock (.token t :: contents.trees)], contents.rest, contents.errors⟩ := by
  have hrun := run_seq_expect ht (stateContents flavor) (rules ++ [.stateBlock]) ahead
  simp only [stateBlock, node, keyword]
  rw [← stateContents, hrun]

/-- **Where a header is ahead, the block of a state starts with it.** -/
theorem opens_stateBlock (rules : List NodeKind) :
    h.Opens ((stateBlock flavor).run rules (h.tokens after)).trees := by
  refine ⟨((seq [expect .leftBrace, statements flavor, expect .rightBrace]).run
    (rules ++ [.stateBlock]) (h.brace :: after)).trees, Tree.mem_subtreesOf_of_mem ?_⟩
  rw [tokens, run_stateBlock h.keyword_kind, stateContents, run_seq_expect h.name_kind]
  exact List.mem_singleton_self _

theorem spares_stateContents : Spares h flavor after .stateBlock k (seq (stateContents flavor)) := by
  have hname : NodeKind.stateBlock ∈ namesDemanded flavor := by cases flavor <;> simp [namesDemanded]
  have hstray : ∀ j, Spares h flavor after .stateBlock j (statements flavor) := fun j =>
    spares_listOf (by cases flavor <;> rfl) fun _ _ hg => spares_statement hg
  exact (spares_name hname).seq fun _ => (spares_expectIn (by simp) (by simp)).seq fun _ =>
    (hstray _).seq fun _ => (spares_expectIn (by simp) (by simp)).seq fun _ => spares_seq_nil

theorem spares_stateBlock : Spares h flavor after n (.keyword .state) (stateBlock flavor) := by
  intro rules before _ ha
  cases before with
  | nil => exact .inr (.inl (opens_stateBlock rules))
  | cons t others =>
    -- The block of another state starts here, so the header is in what follows its keyword.
    have hcontents : h.Survives flavor after ((seq (stateContents flavor)).run
        (rules ++ [.stateBlock]) (others ++ h.tokens after)) :=
      spares_stateContents _ others List.getLast?_concat rfl
    rw [List.cons_append, run_stateBlock ha]
    refine hcontents.mono rfl (fun u hu => ?_) (List.Subset.refl _)
    simp only [Tree.subtreesOf, Tree.subtrees, List.mem_append, List.mem_cons]
    exact .inl (.inr (.inr hu))

theorem spares_block {g : Grammar} (hg : block? flavor k = some g) : Spares h flavor after n k g := by
  unfold block? at hg
  split at hg <;> simp only [Option.some.injEq, reduceCtorEq] at hg <;> subst hg
  · exact spares_mainBlock.node
  · exact spares_stateBlock.node

theorem spares_blocks : Spares h flavor after n k (blocks flavor) :=
  spares_listOf rfl fun _ _ hg => spares_block hg

end Grammar

/-! ### Catalogs -/

theorem Catalog.stateOf?_of_header (h : Header) (cs : List Tree) :
    ∃ s, stateOf? (.node .stateBlock (.token h.keyword :: .token h.name :: cs)) = some s ∧
      s.declaration = h.name ∧
      s.block = .node .stateBlock (.token h.keyword :: .token h.name :: cs) := by
  have hkeyword : (Tree.token h.keyword).isHidden = false := by
    simp [Tree.isHidden, Token.isHidden, h.keyword_kind, TokenKind.isHidden, TokenKind.isTrivia]
  have hname : (Tree.token h.name).isHidden = false := by
    simp [Tree.isHidden, Token.isHidden, h.name_kind, TokenKind.isHidden, TokenKind.isTrivia]
  have hchild : childToken? (.node .stateBlock (.token h.keyword :: .token h.name :: cs)) .identifier =
      some h.name := by
    simp [childToken?, Tree.children, Tree.allChildren, hkeyword, hname, Tree.token?,
      h.keyword_kind, h.name_kind]
  rw [stateOf?, hchild]
  exact ⟨_, rfl, rfl, rfl⟩

namespace Parse
variable (flavor : Flavor) (source : String)

/-- **No state is lost whose keyword is not skipped.** Wherever the keyword `state`, a name and a brace
follow one another, whatever errors come before, a block of a state starts with that keyword and the
catalog has a state declared by that name; or else the keyword was skipped, with an error at it, in
front of a name that an unfinished rule still demands. -/
theorem header_survives (h : Header) (before after : List Token)
    (hahead : (parse flavor source).stream.significant = before ++ h.tokens after) :
    let p := parse flavor source
    (∃ block ∈ p.tree.subtrees, block.isNode .stateBlock = true ∧
      block.leaves.head? = some h.keyword ∧
      ∃ s ∈ (Catalog.ofParse p).states, s.declaration = h.name ∧ s.block = block) ∨
    (Grammar.skipped h.keyword ∈ p.tree.subtrees ∧
      ∃ e ∈ p.errors, e.recovery = .extraneous ∧ e.offending = some h.keyword ∧
        e.expected = [.identifier] ∧ ∃ n ∈ e.rules.getLast?, n ∈ namesDemanded flavor) := by
  intro p
  have hsurvives : h.Survives flavor after
      ((Grammar.blocks flavor).run [.file] (before ++ h.tokens after)) :=
    Grammar.spares_blocks [.file] before rfl rfl
  rw [← hahead] at hsurvives
  rcases hsurvives with ⟨rest, hrest⟩ | ⟨cs, hcs⟩ | ⟨hskipped, herror⟩
  · have hnil : ((Grammar.blocks flavor).run [.file] p.stream.significant).rest = [] :=
      Grammar.Items.rest_eq_nil (fun _ => rfl) _ _
    exact absurd (hrest.symm.trans hnil) Header.ne_nil
  · have hmem := Tree.mem_subtrees_node (k := .file).mpr (.inr hcs)
    refine .inl ⟨_, hmem, rfl, by simp, ?_⟩
    obtain ⟨s, hs, hname, hblock⟩ := Catalog.stateOf?_of_header h cs
    exact ⟨s, List.mem_filterMap.mpr ⟨_, List.mem_filter.mpr ⟨hmem, rfl⟩, hs⟩, hname, hblock⟩
  · exact .inr ⟨Tree.mem_subtrees_node.mpr (.inr hskipped), herror⟩

/-- A state after an argument list that is not closed. -/
theorem header_survives_unclosed :
    let p := parse .official "state B \x7b action X( state A \x7b \x7d"
    let h : Header := ⟨⟨.keyword .state, "state", 20, 1, 20, 11⟩, ⟨.identifier, "A", 26, 1, 26, 13⟩,
      ⟨.leftBrace, "\x7b", 28, 1, 28, 15⟩, rfl, rfl, rfl⟩
    p.stream.significant = p.stream.significant.take 6 ++ h.tokens (p.stream.significant.drop 9) ∧
      ∃ s ∈ (Catalog.ofParse p).states, s.declaration = h.name := by
  intro p h
  have hahead : p.stream.significant =
      p.stream.significant.take 6 ++ h.tokens (p.stream.significant.drop 9) := by decide +kernel
  have herrors : ∀ e ∈ p.errors, e.recovery ≠ .extraneous := by decide +kernel
  refine ⟨hahead, ?_⟩
  rcases header_survives .official _ h _ _ hahead with ⟨_, -, -, -, s, hs, hname, -⟩ | ⟨-, e, he, hskip, -⟩
  · exact ⟨s, hs, hname⟩
  · exact absurd hskip (herrors e he)

/-- A `goto` without its target takes the name of the state after it, whose keyword is skipped. -/
theorem exists_header_lost : ¬ ∀ (flavor : Flavor) (source : String) (h : Header)
    (before after : List Token), (parse flavor source).stream.significant = before ++ h.tokens after →
      (∃ block ∈ (parse flavor source).tree.subtrees, block.isNode .stateBlock = true ∧
        block.leaves.head? = some h.keyword) ∧
      ∃ s ∈ (Catalog.ofParse (parse flavor source)).states, s.declaration = h.name := by
  intro hall
  let source := "state B \x7b rule X() goto state A \x7b \x7d \x7d"
  let h : Header := ⟨⟨.keyword .state, "state", 24, 1, 24, 14⟩, ⟨.identifier, "A", 30, 1, 30, 16⟩,
    ⟨.leftBrace, "\x7b", 32, 1, 32, 18⟩, rfl, rfl, rfl⟩
  have hahead : (parse .eoserv source).stream.significant =
      (parse .eoserv source).stream.significant.take 8 ++
        h.tokens ((parse .eoserv source).stream.significant.drop 11) := by decide +kernel
  have hnames : ∀ s ∈ (Catalog.ofParse (parse .eoserv source)).states, s.declaration ≠ h.name := by
    decide +kernel
  obtain ⟨-, s, hs, hname⟩ := hall .eoserv source h _ _ hahead
  exact hnames s hs hname

end Parse

end QuestScript
