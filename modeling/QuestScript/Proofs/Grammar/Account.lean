import QuestScript.Proofs.Layout.Grammar
import QuestScript.Proofs.Lossless
import QuestScript.Proofs.Token.Order
import QuestScript.Proofs.Tree.Standing

/-! # Errors and skipped tokens

The parser keeps a list of errors and builds a tree, and it does both at once: an error with which it
skips tokens is raised at the first of them, inside the rules in which the node around that token stands.
An outcome is *accounted for* (`Outcome.IsAccounted`) if its errors and the nodes around skipped tokens
tell the same story. Every token and every way of putting pieces together keeps to this, so the whole
grammar does (`accounts_blocks`), and so does every document (`Parse.errors_accounted`). -/

namespace QuestScript

open QuestScript.Tree Grammar

/-! ### Outcomes -/

/-- The errors and the skipped tokens of an outcome belong together. -/
structure Outcome.IsAccounted (rules : List NodeKind) (o : Outcome) : Prop where
  /-- An error with which tokens are skipped is raised at a skipped token, inside the nodes around it. If
  only one is skipped, a token that was expected comes right after it. -/
  skips : ∀ e ∈ o.errors, e.recovery ≠ .missing → ∃ t before after, e.offending = some t ∧
    Stands rules o.trees e.rules before (skipped t) after ∧
    (e.recovery = .extraneous → ∃ u later, after = .token u :: later ∧ u.kind ∈ e.expected)
  /-- A skipped token has an error, or the token before it is skipped, too. -/
  raised : ∀ inner before ts after, Stands rules o.trees inner before (.node .error ts) after →
    ∃ t, ts = [.token t] ∧
      ((∃ e ∈ o.errors, e.recovery ≠ .missing ∧ e.offending = some t ∧ e.rules = inner) ∨
        ∃ earlier s, before = earlier ++ [skipped s])

namespace Outcome.IsAccounted
variable {rules : List NodeKind} {a b : Outcome} {n : NodeKind}

theorem eq_of_stands {trees before after ts : List Tree} {inner : List NodeKind}
    (hflat : ∀ t ∈ trees, ∃ s, t = .token s ∨ t = skipped s)
    (h : Stands rules trees inner before (.node .error ts) after) :
    inner = rules ∧ trees = before ++ .node .error ts :: after := by
  rcases stands_cases h with h | ⟨k, cs, hmem, h⟩
  · exact h
  · -- Below a skipped token's node there is that token only.
    obtain ⟨s, hs | hs⟩ := hflat _ hmem
    · cases hs
    · have hcs : cs = [.token s] := (Tree.node.inj hs).2
      subst hcs
      rcases stands_cases h with ⟨-, heq⟩ | ⟨j, ds, hmem, -⟩
      · have hmem : Tree.node .error ts ∈ [Tree.token s] := by
          rw [heq]
          exact List.mem_append_right before List.mem_cons_self
        simp at hmem
      · simp at hmem

/-- Where only tokens are taken and nothing is skipped, nothing has to be accounted for. -/
theorem of_plain {trees : List Tree} {rest : List Token} {errors : List SyntaxError}
    (htrees : ∀ t ∈ trees, ∃ s, t = .token s) (herrors : ∀ e ∈ errors, e.recovery = .missing) :
    IsAccounted rules ⟨trees, rest, errors⟩ := by
  refine ⟨fun e he hskips => absurd (herrors e he) hskips, fun inner before ts after h => ?_⟩
  obtain ⟨-, heq⟩ := eq_of_stands (fun t ht => (htrees t ht).imp fun _ => Or.inl) h
  obtain ⟨s, hs⟩ := htrees (.node .error ts) (heq ▸ List.mem_append_right before List.mem_cons_self)
  cases hs

theorem append (ha : a.IsAccounted rules) (hb : b.IsAccounted rules) (rest : List Token) :
    IsAccounted rules ⟨a.trees ++ b.trees, rest, a.errors ++ b.errors⟩ := by
  constructor
  · intro e he hskips
    rcases List.mem_append.mp he with he | he
    · obtain ⟨t, before, after, hoffending, hstands, hnext⟩ := ha.skips e he hskips
      obtain ⟨more, hstands⟩ := hstands.append_right b.trees
      refine ⟨t, before, after ++ more, hoffending, hstands, fun hextraneous => ?_⟩
      obtain ⟨u, later, rfl, hu⟩ := hnext hextraneous
      exact ⟨u, later ++ more, rfl, hu⟩
    · obtain ⟨t, before, after, hoffending, hstands, hnext⟩ := hb.skips e he hskips
      obtain ⟨more, hstands⟩ := hstands.append_left a.trees
      exact ⟨t, more ++ before, after, hoffending, hstands, hnext⟩
  · intro inner before ts after hstands
    rcases hstands.of_append with ⟨after', hstands'⟩ | ⟨more, before', rfl, hstands'⟩
    · obtain ⟨t, hts, hraised⟩ := ha.raised inner before ts after' hstands'
      refine ⟨t, hts, hraised.imp_left ?_⟩
      rintro ⟨e, he, herror⟩
      exact ⟨e, List.mem_append_left b.errors he, herror⟩
    · obtain ⟨t, hts, hraised⟩ := hb.raised inner before' ts after hstands'
      refine ⟨t, hts, hraised.imp ?_ ?_⟩
      · rintro ⟨e, he, herror⟩
        exact ⟨e, List.mem_append_right a.errors he, herror⟩
      · rintro ⟨earlier, s, rfl⟩
        exact ⟨more ++ earlier, s, (List.append_assoc ..).symm⟩

theorem node (hn : n ≠ .error) (ha : a.IsAccounted (rules ++ [n])) :
    IsAccounted rules ⟨[.node n a.trees], a.rest, a.errors⟩ := by
  constructor
  · intro e he hskips
    obtain ⟨t, before, after, hoffending, hstands, hnext⟩ := ha.skips e he hskips
    exact ⟨t, before, after, hoffending, .deeper (List.mem_singleton_self _) hstands, hnext⟩
  · intro inner before ts after hstands
    rcases stands_node hstands with heq | hstands
    · exact absurd (Tree.node.inj heq).1.symm hn
    · exact ha.raised inner before ts after hstands

end Outcome.IsAccounted

namespace Grammar

/-- Whatever is ahead, the errors of the piece and the tokens that it skips belong together. -/
def Accounts (g : Grammar) : Prop := ∀ rules ahead, (g.run rules ahead).IsAccounted rules

variable {g h : Grammar} {gs : List Grammar} {k : TokenKind} {kinds : List TokenKind}

/-! ### Tokens -/

theorem accounts_nothing : Accounts nothing := fun _ _ => .of_plain (by simp) (by simp)

theorem accounts_missing : Accounts (missing kinds) := fun _ _ =>
  .of_plain (by simp) (by simp [SyntaxError.raise])

theorem accounts_next : Accounts next := by
  intro rules ahead
  cases ahead with
  | nil => exact .of_plain (by simp) (by simp)
  | cons t ahead => exact .of_plain (by simp) (by simp)

theorem accounts_optional : Accounts (optional k) := by
  intro rules ahead
  simp only [optional]
  split
  · exact accounts_next rules ahead
  · exact .of_plain (by simp) (by simp)

theorem mem_vocabulary (hk : k ≠ .unknown) : k ∈ TokenKind.vocabulary := by
  cases k with
  | keyword j =>
    have hj : TokenKind.keyword j ∈ Keyword.all.map TokenKind.keyword :=
      List.mem_map_of_mem j.mem_all
    simp [TokenKind.vocabulary, TokenKind.recognized, j.mem_all]
  | unknown => exact absurd rfl hk
  | _ => decide

/-- The token in front of the expected one is skipped, and the error is raised there. -/
theorem isAccounted_extraneous {rules : List NodeKind} {t u : Token} {rest : List Token}
    (hu : u.kind ∈ kinds) (hknown : u.kind ≠ .unknown) :
    Outcome.IsAccounted rules ⟨[skipped t, .token u], rest,
      [.raise .extraneous kinds rules (t :: u :: rest)]⟩ := by
  constructor
  · intro e he _
    rw [List.mem_singleton.mp he]
    refine ⟨t, [], [.token u], rfl, .here rules [] (skipped t) [.token u], fun _ => ?_⟩
    exact ⟨u, [], rfl, TokenKind.mem_sorted.mpr ⟨mem_vocabulary hknown, hu⟩⟩
  · intro inner before ts after hstands
    have hflat : ∀ v ∈ [skipped t, Tree.token u], ∃ s, v = .token s ∨ v = skipped s := by
      intro v hv
      rcases List.mem_cons.mp hv with rfl | hv
      · exact ⟨t, Or.inr rfl⟩
      · exact ⟨u, Or.inl (List.mem_singleton.mp hv)⟩
    obtain ⟨rfl, heq⟩ := Outcome.IsAccounted.eq_of_stands hflat hstands
    have hmem : Tree.node .error ts ∈ [skipped t, .token u] := by
      rw [show [skipped t, .token u] = before ++ Tree.node .error ts :: after from heq]
      exact List.mem_append_right before List.mem_cons_self
    have hts : ts = [.token t] := by simpa [skipped] using hmem
    exact ⟨t, hts, Or.inl ⟨_, List.mem_singleton_self _, by simp [SyntaxError.raise], rfl, rfl⟩⟩

theorem accounts_expectIn (hk : k ∈ kinds) (hknown : k ≠ .unknown) : Accounts (expectIn k kinds) := by
  intro rules ahead
  have hplain : ∀ {trees rest} {ahead : List Token}, (∀ t ∈ trees, ∃ s, t = Tree.token s) →
      Outcome.IsAccounted rules ⟨trees, rest, [.raise .missing kinds rules ahead]⟩ := fun htrees =>
    .of_plain htrees (by simp [SyntaxError.raise])
  rcases ahead with _ | ⟨t, _ | ⟨u, rest⟩⟩
  · exact hplain (by simp)
  · simp only [expectIn]
    split
    · exact .of_plain (by simp) (by simp)
    · exact hplain (by simp)
  · simp only [expectIn]
    split
    · exact .of_plain (by simp) (by simp)
    · split
      · rename_i hu
        exact isAccounted_extraneous (hu ▸ hk) (hu ▸ hknown)
      · exact hplain (by simp)

theorem accounts_expect (hknown : k ≠ .unknown) : Accounts (expect k) :=
  accounts_expectIn (List.mem_singleton_self k) hknown

/-! ### Putting pieces together -/

theorem Accounts.andThen (hg : g.Accounts) (hh : h.Accounts) : (g.andThen h).Accounts :=
  fun rules ahead => (hg rules ahead).append (hh rules _) _

theorem accounts_seq_nil : (seq []).Accounts := accounts_nothing

theorem Accounts.seq (hg : g.Accounts) (hgs : (Grammar.seq gs).Accounts) :
    (Grammar.seq (g :: gs)).Accounts :=
  hg.andThen hgs

theorem Accounts.node {n : NodeKind} (hg : g.Accounts) (hn : n ≠ .error) : (g.node n).Accounts :=
  fun rules ahead => (hg (rules ++ [n]) ahead).node hn

theorem accounts_byKind {choose : TokenKind → Grammar} (hchoose : ∀ k, (choose k).Accounts) :
    (byKind choose).Accounts :=
  fun rules ahead => hchoose _ rules ahead

/-- **A run of stray tokens** has an error at the first; each of the others comes after a skipped one. -/
theorem isAccounted_stray {rules : List NodeKind} {t : Token} {others ahead rest : List Token} :
    Outcome.IsAccounted rules ⟨(t :: others).map skipped, rest,
      [.raise .mismatched kinds rules (t :: ahead)]⟩ := by
  constructor
  · intro e he _
    rw [List.mem_singleton.mp he]
    refine ⟨t, [], others.map skipped, rfl, .here rules [] (skipped t) _, fun hextraneous => ?_⟩
    simp [SyntaxError.raise] at hextraneous
  · intro inner before ts after hstands
    have hflat : ∀ v ∈ (t :: others).map skipped, ∃ s, v = .token s ∨ v = skipped s := by
      intro v hv
      obtain ⟨s, -, rfl⟩ := List.mem_map.mp hv
      exact ⟨s, Or.inr rfl⟩
    obtain ⟨rfl, heq⟩ := Outcome.IsAccounted.eq_of_stands hflat hstands
    obtain ⟨earlier, later, hsplit, hbefore, hlater⟩ := List.map_eq_append_iff.mp heq
    obtain ⟨s, _, rfl, hs, -⟩ := List.map_eq_cons_iff.mp hlater
    have hts : [Tree.token s] = ts := (Tree.node.inj hs).2
    refine ⟨s, hts.symm, ?_⟩
    rcases List.eq_nil_or_concat earlier with rfl | ⟨front, r, rfl⟩
    · obtain ⟨rfl, -⟩ := List.cons.inj hsplit
      exact Or.inl ⟨_, List.mem_singleton_self _, by simp [SyntaxError.raise], rfl, rfl⟩
    · refine Or.inr ⟨front.map skipped, r, ?_⟩
      rw [← hbefore, List.concat_eq_append, List.map_append, List.map_singleton]

theorem accounts_listOf {s : Items} (hitem : ∀ k g, s.item? k = some g → g.Accounts) :
    (listOf s).Accounts := by
  intro rules ahead
  change (s.run rules ahead).IsAccounted rules
  fun_induction s.run rules ahead with
  | case1 => exact .of_plain (by simp) (by simp)
  | case2 t others g hg a b ih => exact (hitem t.kind g hg rules (t :: others)).append ih b.rest
  | case3 t others hi hc => exact .of_plain (by simp) (by simp)
  | case4 t others hi hc stray b ih =>
    have hstray : Outcome.IsAccounted rules ⟨stray.map skipped, b.rest,
        [.raise .mismatched s.expected rules (t :: others)]⟩ := isAccounted_stray
    exact hstray.append ih b.rest

/-! ### The pieces of the grammar -/

theorem accounts_literal : Accounts literal := accounts_next.node (by simp)

theorem isAccounted_moreArguments {wrapper : NodeKind} (hwrapper : wrapper ≠ .error)
    (rules : List NodeKind) (ahead : List Token) :
    (moreArguments wrapper rules ahead).IsAccounted rules := by
  fun_induction moreArguments wrapper rules ahead with
  | case1 => exact .of_plain (by simp) (by simp)
  | case2 comma hcomma t others ht more ih =>
    have hargument : Outcome.IsAccounted rules ⟨[argumentTree wrapper t], [], []⟩ :=
      Outcome.IsAccounted.node (a := ⟨[literalTree t], [], []⟩) hwrapper <|
        Outcome.IsAccounted.node (a := ⟨[.token t], [], []⟩) (by simp) (.of_plain (by simp) (by simp))
    have hcomma : Outcome.IsAccounted rules ⟨[.token comma], [], []⟩ :=
      .of_plain (by simp) (by simp)
    exact hcomma.append (hargument.append ih []) more.rest
  | case3 => exact .of_plain (by simp) (by simp [SyntaxError.raise])
  | case4 => exact .of_plain (by simp) (by simp [SyntaxError.raise])
  | case5 => exact .of_plain (by simp) (by simp)

theorem accounts_arguments {wrapper : NodeKind} (hwrapper : wrapper ≠ .error) :
    Accounts (arguments wrapper) := by
  have hfirst : Accounts (argument wrapper) := accounts_literal.node hwrapper
  refine Accounts.node (hfirst.seq ?_) (by simp)
  exact Accounts.seq (isAccounted_moreArguments hwrapper) accounts_seq_nil

theorem accounts_argumentList {wrapper : NodeKind} (hwrapper : wrapper ≠ .error) :
    Accounts (argumentList wrapper) := by
  have hbody : Accounts (argumentListBody wrapper) := by
    refine accounts_byKind fun k => ?_
    split
    · exact (accounts_arguments hwrapper).seq <|
        (accounts_expectIn (by simp) (by simp)).seq accounts_seq_nil
    · exact accounts_expectIn (by simp) (by simp)
  refine accounts_byKind fun k => ?_
  split
  · exact ((accounts_expect (by simp)).seq <| hbody.seq accounts_seq_nil).node (by simp)
  · exact accounts_missing

theorem argumentKind_ne_error (flavor : Flavor) : argumentKind flavor ≠ .error := by
  cases flavor <;> simp [argumentKind]

theorem accounts_semicolon : Accounts semicolon := accounts_optional

theorem accounts_keyword (j : Keyword) : Accounts (keyword j) := accounts_expect (by simp)

theorem accounts_name : Accounts (expect .identifier) := accounts_expect (by simp)

theorem accounts_description : Accounts description :=
  Accounts.node ((accounts_keyword _).seq <| (accounts_expect (by simp)).seq <|
    accounts_semicolon.seq accounts_seq_nil) (by simp)

theorem accounts_officialRule : Accounts officialRule :=
  Accounts.node ((accounts_keyword _).seq <| accounts_name.seq <|
    (accounts_argumentList (argumentKind_ne_error _)).seq <| (accounts_keyword _).seq <|
    accounts_name.seq <| accounts_semicolon.seq accounts_seq_nil) (by simp)

theorem accounts_officialAction : Accounts officialAction :=
  Accounts.node ((accounts_keyword _).seq <| accounts_name.seq <|
    (accounts_argumentList (argumentKind_ne_error _)).seq <|
    accounts_semicolon.seq accounts_seq_nil) (by simp)

theorem accounts_expression : Accounts expression := by
  refine (accounts_byKind fun k => ?_).node (by simp)
  split
  · exact Accounts.node (accounts_name.seq <|
      (accounts_argumentList (argumentKind_ne_error _)).seq accounts_seq_nil) (by simp)
  · split
    · exact Accounts.node ((accounts_keyword _).seq <| accounts_name.seq accounts_seq_nil) (by simp)
    · exact accounts_literal

theorem accounts_expressions (operands : Nat) : Accounts (expressions operands) := by
  induction operands with
  | zero => exact accounts_nothing
  | succ operands ih =>
    refine accounts_byKind fun k => ?_
    split
    · exact accounts_expression.seq (ih.seq accounts_seq_nil)
    · exact accounts_missing

theorem accounts_operandStatement {n : NodeKind} (hn : n ≠ .error) (j : Keyword) (operands : Nat) :
    Accounts (operandStatement n j operands) :=
  Accounts.node ((accounts_keyword _).seq <| (accounts_expressions operands).seq <|
    accounts_semicolon.seq accounts_seq_nil) hn

theorem accounts_statement {flavor : Flavor} (hg : statement? flavor k = some g) : g.Accounts := by
  cases k <;> simp only [statement?, reduceCtorEq, Option.map_eq_some_iff] at hg
  rename_i j
  obtain ⟨body, hbody, rfl⟩ := hg
  refine Accounts.node ?_ (by simp)
  cases flavor <;> cases j <;>
    simp only [statementBody?, Option.some.injEq, reduceCtorEq] at hbody <;> subst hbody
  · exact accounts_description
  · exact accounts_officialRule
  · exact accounts_officialAction
  · exact accounts_description
  · exact accounts_operandStatement (by simp) _ _
  · exact accounts_operandStatement (by simp) _ _
  · exact accounts_operandStatement (by simp) _ _
  · exact accounts_operandStatement (by simp) _ _
  · exact accounts_operandStatement (by simp) _ _
  · exact accounts_operandStatement (by simp) _ _

theorem accounts_mainAttribute (hg : mainAttribute? k = some g) : g.Accounts := by
  cases k <;> simp only [mainAttribute?, reduceCtorEq, Option.map_eq_some_iff] at hg
  rename_i j
  obtain ⟨⟨n, value⟩, hvalue, rfl⟩ := hg
  have hpiece : n ≠ .error ∧ Accounts ((value.map expect).getD nothing) := by
    cases j <;> simp only [attribute?, Option.some.injEq, Prod.mk.injEq, reduceCtorEq] at hvalue <;>
      obtain ⟨rfl, rfl⟩ := hvalue
    · exact ⟨by simp, accounts_expect (by simp)⟩
    · exact ⟨by simp, accounts_expect (by simp)⟩
    · exact ⟨by simp, accounts_nothing⟩
    · exact ⟨by simp, accounts_nothing⟩
    · exact ⟨by simp, accounts_nothing⟩
  obtain ⟨hn, hexpect⟩ := hpiece
  have hbody := (accounts_keyword j).seq (hexpect.seq (accounts_semicolon.seq accounts_seq_nil))
  exact (hbody.node hn).node (by simp)

theorem accounts_block {flavor : Flavor} (hg : block? flavor k = some g) : g.Accounts := by
  have hbrace : ∀ j, j ≠ .unknown → Accounts (expect j) := fun _ => accounts_expect
  unfold block? at hg
  split at hg <;> simp only [Option.some.injEq, reduceCtorEq] at hg <;> subst hg
  · have hattributes : Accounts mainAttributes := accounts_listOf fun _ _ => accounts_mainAttribute
    have hblock : Accounts mainBlock :=
      Accounts.node ((accounts_keyword _).seq <| (hbrace _ (by simp)).seq <| hattributes.seq <|
        (hbrace _ (by simp)).seq accounts_seq_nil) (by simp)
    exact hblock.node (by simp)
  · have hstatements : Accounts (statements flavor) := accounts_listOf fun _ _ => accounts_statement
    have hblock : Accounts (stateBlock flavor) :=
      Accounts.node ((accounts_keyword _).seq <| accounts_name.seq <| (hbrace _ (by simp)).seq <|
        hstatements.seq <| (hbrace _ (by simp)).seq accounts_seq_nil) (by simp)
    exact hblock.node (by simp)

/-- **In every file errors and skipped tokens belong together.** -/
theorem accounts_blocks (flavor : Flavor) : Accounts (blocks flavor) :=
  accounts_listOf fun _ _ => accounts_block

end Grammar

/-! ### Documents -/

namespace Parse
variable {flavor : Flavor} {source : String} {before after : List Tree} {inner : List NodeKind}
  {t u : Token} {e : SyntaxError}

theorem significant_of_stands {x : Tree}
    (h : Stands [.file] ((blocks flavor).run [.file] (parse flavor source).stream.significant).trees
      inner before x after) : ∃ left right, (parse flavor source).stream.significant =
        left ++ (leavesOf before ++ (x.leaves ++ right)) := by
  obtain ⟨left, right, hleaves⟩ := h.leaves
  rw [leavesOf_blocks] at hleaves
  exact ⟨left, right, hleaves⟩

theorem isHidden_of_stands
    (h : Stands [.file] ((blocks flavor).run [.file] (parse flavor source).stream.significant).trees
      inner before (.token u) after) : (Tree.token u).isHidden = false := by
  obtain ⟨left, right, hleaves⟩ := significant_of_stands h
  have hmem : u ∈ (parse flavor source).stream.significant := by
    rw [hleaves, leaves_token]
    simp
  exact isSignificant_iff.mp (List.mem_filter.mp hmem).2

/-- An error is at a token of the stream; at its end only if something is missing there. -/
theorem offending_token (he : e ∈ (parse flavor source).errors) :
    ∃ t, (parse flavor source).stream.get? ((parse flavor source).offendingIndex e) = some t ∧
      (∀ s ∈ e.offending, s = t) ∧ (t.isEnd = true → e.recovery = .missing) := by
  cases hoffending : e.offending with
  | none =>
    have hmissing : e.recovery = .missing := by
      by_contra hskips
      obtain ⟨t, -, -, ht, -⟩ := (accounts_blocks flavor [.file] _).skips e he hskips
      rw [hoffending] at ht
      cases ht
    refine ⟨TokenStream.endToken (Cursor.start.advance source.toList)
      (Lexeme.ofText flavor source.toList).length, ?_, by simp, fun _ => hmissing⟩
    rw [offendingIndex, hoffending, Option.map_none, Option.getD_none, endIndex]
    change (TokenStream.ofSource flavor source).get? ((TokenStream.ofSource flavor source).length - 1) = _
    rw [← TokenStream.index_endToken]
    refine TokenStream.get?_index ?_
    rw [TokenStream.tokens_eq_document_append]
    exact List.mem_append_right _ (List.mem_singleton_self _)
  | some t =>
    have ht : t ∈ (parse flavor source).stream.significant :=
      isNatural_blocks.offending_mem he hoffending
    have hmem : t ∈ (parse flavor source).stream.document := (List.mem_filter.mp ht).1
    have hend : t.isEnd = false := by simpa using (List.mem_filter.mp hmem).2
    refine ⟨t, ?_, by simp, fun h => by rw [hend] at h; cases h⟩
    rw [offendingIndex, hoffending]
    exact TokenStream.get?_index (TokenStream.mem_tokens_of_mem_document hmem)

/-- **Errors and skipped tokens account for each other.** Where an error skips tokens, its own token is
skipped, and the nodes around it are the rules of the error; if it skips one token only, an expected token
follows. Every skipped token has such an error, or it comes right after another skipped token, with the
same parent. Only where a token is missing may an error be at the end of the document. -/
theorem errors_accounted (flavor : Flavor) (source : String) :
    let p := parse flavor source
    let places := (Place.root p.fullTree.withoutHidden).descendants
    (∀ e ∈ p.errors, e.recovery ≠ .missing → ∃ t, e.offending = some t ∧
      ∃ q ∈ places, q.focus = .node .error [.token t] ∧ q.rules = e.rules ∧
        (e.recovery = .extraneous → ∃ u, q.next? = some (.token u) ∧ u.kind ∈ e.expected)) ∧
    (∀ q ∈ places, q.focus.isNode .error = true → ∃ t, q.focus = .node .error [.token t] ∧
      ((∃ e ∈ p.errors, e.recovery ≠ .missing ∧ e.offending = some t ∧ e.rules = q.rules) ∨
        ∃ s, q.previous? = some (.node .error [.token s]) ∧
          ∃ before after, p.stream.significant = before ++ s :: t :: after)) ∧
    ∀ e ∈ p.errors, ∃ t, p.stream.get? (p.offendingIndex e) = some t ∧
      (∀ s ∈ e.offending, s = t) ∧ (t.isEnd = true → e.recovery = .missing) := by
  intro p places
  have haccounted := accounts_blocks flavor [.file] p.stream.significant
  have hplaces : places = (Place.root p.tree).descendants := by
    rw [← withoutHidden_fullTree flavor source]
  refine ⟨fun e he hskips => ?_, fun q hq herror => ?_, fun e he => offending_token he⟩
  · obtain ⟨t, before, after, hoffending, hstands, hnext⟩ := haccounted.skips e he hskips
    obtain ⟨j, around, hmem, hrules⟩ := Place.stands_iff.mp hstands
    refine ⟨t, hoffending, _, ?_, rfl, hrules, fun hextraneous => ?_⟩
    · rw [hplaces]
      exact hmem
    · obtain ⟨u, later, rfl, hu⟩ := hnext hextraneous
      refine ⟨u, ?_, hu⟩
      have hvisible : (Tree.token u).isHidden = false := isHidden_of_stands hstands.next
      simp only [Place.next?, List.head?_cons, Option.bind_some]
      rw [List.find?_cons_of_pos (by rw [hvisible]; rfl)]
  · rw [hplaces] at hq
    obtain ⟨focus, path⟩ := q
    cases path with
    | nil =>
      -- The root is a file.
      have hroot : focus = p.tree := Place.mem_descendants_iff.mp hq
      rw [hroot] at herror
      cases herror
    | cons f around =>
      obtain ⟨j, earlier, later⟩ := f
      obtain ⟨cs, rfl⟩ : ∃ cs, focus = .node .error cs := by
        cases focus with
        | token s => cases herror
        | node k cs =>
          have hk : k = .error := by simpa [isNode, kind] using herror
          exact ⟨cs, by rw [hk]⟩
      have hstands := Place.stands_of_whole (Place.mem_descendants_iff.mp hq)
      obtain ⟨t, rfl, hraised | ⟨front, s, hbefore⟩⟩ := haccounted.raised _ _ cs _ hstands
      · exact ⟨t, rfl, Or.inl hraised⟩
      · refine ⟨t, rfl, Or.inr ⟨s, ?_, ?_⟩⟩
        · have hearlier : earlier = skipped s :: front.reverse := by
            have hreverse := congrArg List.reverse hbefore
            simpa using hreverse
          simp only [Place.previous?, List.head?_cons, Option.bind_some, hearlier]
          rfl
        · obtain ⟨left, right, hleaves⟩ := significant_of_stands hstands
          rw [show earlier.reverse = front ++ [skipped s] from hbefore] at hleaves
          refine ⟨left ++ leavesOf front, right, ?_⟩
          rw [hleaves]
          simp

end Parse

end QuestScript
