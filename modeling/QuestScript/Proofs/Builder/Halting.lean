import Mathlib.Data.List.TakeWhile
import QuestScript.Proofs.Builder.Follow

/-! # The builder comes to the end

The builder follows the whole grammar, and each turn of each of its loops takes a token. So it always reads the
document to its end, closes each node that it opens, and leaves the tree and the errors of the document
(`Step.file_halts`). -/

namespace QuestScript

namespace Step
open Grammar Builder QuestScript.Tree

variable {k : TokenKind} {b : Builder} {wrapper : NodeKind} {flavor : Flavor}

/-! ### Literals and argument lists -/

theorem ne_endOfInput_of_mem_literalFirst (h : k ∈ literalFirst) : k ≠ .endOfInput := by
  rintro rfl
  simp [literalFirst] at h

theorem follows_literal (h : k ≠ .endOfInput) : Follows k literal Grammar.literal :=
  (follows_take h).within

theorem follows_argument (h : k ∈ literalFirst) :
    Follows k (argument wrapper) (Grammar.argument wrapper) :=
  (follows_literal (ne_endOfInput_of_mem_literalFirst h)).within

theorem commaTurn_again {comma t : Token} {others : List Token} (hb : b.Ready)
    (hs : b.significant = comma :: t :: others) (hcomma : comma.kind = .comma)
    (ht : t.kind ∈ literalFirst) : commaTurn wrapper b =
      some (.again (b.after ⟨[.token comma, argumentTree wrapper t], others, []⟩)) := by
  have hlossless : leavesOf [.token comma] ++ t :: others = b.significant := by rw [hs]; simp
  have hleft : (b.after ⟨[.token comma], t :: others, []⟩).significant = t :: others :=
    significant_after hlossless
  have hahead := lookAhead_zero hleft
  have hfollows : Follows t.kind (argument wrapper) (Grammar.argument wrapper) := follows_argument ht
  have hargument := hfollows _ (hb.after hlossless) hahead
  rw [hleft] at hargument
  simp only [commaTurn, lookAhead_zero hs, hcomma, if_true, take_eq hs, hahead, ht, hargument,
    Option.map_some]
  rw [after_after others]
  rfl

theorem commaTurn_missing {comma : Token} {others : List Token}
    (hs : b.significant = comma :: others) (hcomma : comma.kind = .comma)
    (ht : kindAhead others ∉ literalFirst) : commaTurn wrapper b =
      some (.stop (b.after
        ⟨[.token comma], others, [.raise .missing literalFirst b.rules others]⟩)) := by
  have hleft : (b.after ⟨[.token comma], others, []⟩).significant = others :=
    significant_after (by rw [hs]; simp)
  have hahead : (b.after ⟨[.token comma], others, []⟩).lookAhead 0 = kindAhead others := by
    rw [lookAhead, hleft, List.drop_zero]
  have hraise : (b.after ⟨[.token comma], others, []⟩).raise .missing literalFirst =
      b.after ⟨[.token comma], others, [.raise .missing literalFirst b.rules others]⟩ := by
    rw [Builder.raise, hleft]
    simp only [Builder.after, List.append_nil]
  simp only [commaTurn, lookAhead_zero hs, hcomma, if_true, take_eq hs, hahead, ht, if_false, hraise]

theorem commaTurn_stop (h : b.lookAhead 0 ≠ .comma) : commaTurn wrapper b = some (.stop b) :=
  if_neg h

theorem advances_commaTurn (wrapper : NodeKind) : Advances (commaTurn wrapper) := by
  intro b hb
  by_cases hcomma : b.lookAhead 0 = .comma
  · obtain ⟨comma, others, hs, hkind⟩ := exists_significant hcomma (by simp)
    rcases others with _ | ⟨t, others⟩
    · refine ⟨_, commaTurn_missing hs hkind (by simp [kindAhead, literalFirst]), Or.inr ?_⟩
      rw [Turn.builder, significant_after (by rw [hs]; simp), hs]
      exact Nat.lt_succ_self _
    · by_cases ht : t.kind ∈ literalFirst
      · refine ⟨_, commaTurn_again hb hs hkind ht, Or.inr ?_⟩
        rw [Turn.builder, significant_after (by rw [hs]; simp [argumentTree, literalTree]), hs]
        simp only [List.length_cons]
        omega
      · refine ⟨_, commaTurn_missing hs hkind ht, Or.inr ?_⟩
        rw [Turn.builder, significant_after (by rw [hs]; simp), hs]
        exact Nat.lt_succ_self _
  · exact ⟨_, commaTurn_stop hcomma, Or.inl rfl⟩

/-- The loop over the further arguments ends, and takes what the grammar does. -/
theorem loop_commaTurn (hb : b.Ready) : loop (commaTurn wrapper) b =
    some (b.after (moreArguments wrapper b.rules b.significant)) := by
  generalize hs : b.significant = ahead
  generalize hr : b.rules = rules
  fun_induction moreArguments wrapper rules ahead generalizing b with
  | case1 =>
    have hend := lookAhead_nil hs
    rw [loop_stop (commaTurn_stop (by rw [hend]; simp)), after_nothing]
  | case2 comma hcomma t others ht more =>
    rename_i ih
    have hlossless : leavesOf [.token comma, argumentTree wrapper t] ++ others = b.significant := by
      rw [hs]
      simp [argumentTree, literalTree]
    rw [loop_again (commaTurn_again hb hs hcomma ht),
      ih (hb.after hlossless) (significant_after hlossless) hr, after_after more.rest]
    rfl
  | case3 comma hcomma t others ht =>
    rw [loop_stop (commaTurn_missing hs hcomma ht), hr]
  | case4 comma hcomma =>
    rw [loop_stop (commaTurn_missing hs hcomma (by simp [kindAhead, literalFirst])), hr]
  | case5 comma ahead hcomma =>
    rw [loop_stop (commaTurn_stop (by rwa [lookAhead_zero hs])), after_nothing]

theorem follows_arguments (h : k ∈ literalFirst) :
    Follows k (arguments wrapper) (Grammar.arguments wrapper) :=
  ((follows_argument h).seq fun _ =>
    Follows.seq (fun _ hb _ => loop_commaTurn hb) fun _ => follows_steps_nil).within

theorem follows_argumentListBody :
    Follows k (argumentListBody wrapper) (Grammar.argumentListBody wrapper) := by
  refine follows_byKind ?_
  split
  · rename_i h
    exact (follows_arguments h).seq fun _ =>
      (follows_expectIn (by simp)).seq fun _ => follows_steps_nil
  · exact follows_expectIn (by simp)

theorem follows_argumentList : Follows k (argumentList wrapper) (Grammar.argumentList wrapper) := by
  refine follows_byKind ?_
  split
  · rename_i h
    subst h
    exact ((follows_take_expect (by simp)).seq fun _ =>
      follows_argumentListBody.seq fun _ => follows_steps_nil).within
  · exact follows_missing

/-! ### Statements -/

theorem follows_semicolon : Follows k (eat .semicolon) semicolon := follows_eat (by simp)

theorem follows_name : Follows k (expect .identifier) (Grammar.expect .identifier) :=
  follows_expect (by simp)

theorem follows_keyword (j : Keyword) : Follows k (expect (.keyword j)) (keyword j) :=
  follows_expect (by simp)

/-- Where a keyword is ahead it need not be demanded. -/
theorem follows_leader (j : Keyword) : Follows (.keyword j) take (keyword j) :=
  follows_take_expect (by simp)

theorem follows_description : Follows k description Grammar.description :=
  ((follows_keyword _).seq fun _ => (follows_expect (by simp)).seq fun _ =>
    follows_semicolon.seq fun _ => follows_steps_nil).within

theorem follows_officialRule : Follows (.keyword .rule) officialRule Grammar.officialRule :=
  ((follows_leader _).seq fun _ => follows_name.seq fun _ => follows_argumentList.seq fun _ =>
    (follows_keyword _).seq fun _ => follows_name.seq fun _ =>
      follows_semicolon.seq fun _ => follows_steps_nil).within

theorem follows_officialAction : Follows (.keyword .action) officialAction Grammar.officialAction :=
  ((follows_leader _).seq fun _ => follows_name.seq fun _ => follows_argumentList.seq fun _ =>
    follows_semicolon.seq fun _ => follows_steps_nil).within

theorem follows_expression (h : k ∈ expressionFirst) : Follows k expression Grammar.expression := by
  have hk : k ≠ .endOfInput := by
    rintro rfl
    simp [expressionFirst] at h
  refine Follows.within (follows_byKind ?_)
  split
  · rename_i hname
    subst hname
    exact ((follows_take_expect hk).seq fun _ =>
      follows_argumentList.seq fun _ => follows_steps_nil).within
  · split
    · rename_i hgoto
      subst hgoto
      exact ((follows_leader _).seq fun _ => follows_name.seq fun _ => follows_steps_nil).within
    · exact follows_literal hk

theorem follows_operands (n : Nat) : Follows k (operands n) (expressions n) := by
  induction n generalizing k with
  | zero => exact follows_nothing
  | succ n ih =>
    refine follows_byKind ?_
    split
    · rename_i h
      exact (follows_expression h).seq fun _ => Follows.seq ih fun _ => follows_steps_nil
    · exact follows_missing

theorem follows_operandStatement {n : NodeKind} {j : Keyword} {count : Nat} :
    Follows (.keyword j) (operandStatement n count) (Grammar.operandStatement n j count) :=
  ((follows_leader j).seq fun _ => (follows_operands count).seq fun _ =>
    follows_semicolon.seq fun _ => follows_steps_nil).within

theorem follows_statementBody {j : Keyword} {g : Grammar} (h : statementBody? flavor j = some g) :
    Follows (.keyword j) (statementBody flavor (.keyword j)) g := by
  cases flavor <;> cases j <;> simp only [statementBody?, Option.some.injEq, reduceCtorEq] at h <;>
    subst h
  case official.description => exact follows_description
  case official.rule => exact follows_officialRule
  case official.action => exact follows_officialAction
  case eoserv.description => exact follows_description
  all_goals exact follows_operandStatement

theorem follows_statement {g : Grammar} (h : statement? flavor k = some g) :
    Follows k (statement flavor) g := by
  cases k <;> simp only [statement?, reduceCtorEq, Option.map_eq_some_iff] at h
  obtain ⟨body, hbody, rfl⟩ := h
  exact (follows_choice (follows_statementBody hbody)).within

theorem isSome_statement? (flavor : Flavor) (k : TokenKind) :
    (statement? flavor k).isSome = true ↔ k ∈ (statementKeywords flavor).map .keyword := by
  cases k with
  | keyword j => cases flavor <;> cases j <;> decide
  | _ => cases flavor <;> decide

theorem matches_statements (flavor : Flavor) : (statementLoop flavor).Matches {
    item? := statement? flavor
    isClosing := endsBlock
    expected := (statementKeywords flavor).map .keyword ++ [.rightBrace]
    takes := takes_statement } where
  item k := by
    simp only [statementLoop, ← isSome_statement? flavor k]
    cases h : statement? flavor k with
    | none => exact .none
    | some g => exact .some (follows_statement h)
  noItem := rfl
  atEnd := by simp [statementLoop]
  closing k hk := by
    cases k with
    | keyword j => cases j <;> simp [statementLoop, endsBlock]
    | endOfInput => exact absurd rfl hk
    | _ => simp [statementLoop, endsBlock]
  resume k hk := by
    cases k with
    | keyword j => cases flavor <;> cases j <;> decide
    | endOfInput => exact absurd rfl hk
    | _ => cases flavor <;> decide
  expected := rfl

/-! ### Blocks -/

theorem follows_mainAttribute {j : Keyword} {n : NodeKind} {value : Option TokenKind}
    (hvalue : value ≠ some .endOfInput) :
    Follows (.keyword j) (mainAttribute n value) (Grammar.mainAttribute j n value) := by
  have hdemand : ∀ i, Follows i ((value.map expect).getD some)
      ((value.map Grammar.expect).getD nothing) := by
    intro i
    cases value with
    | none => exact follows_nothing
    | some v => exact follows_expect fun h => hvalue (congrArg some h)
  exact ((follows_leader j).seq fun i => (hdemand i).seq fun _ =>
    follows_semicolon.seq fun _ => follows_steps_nil).within.within

theorem value_ne_endOfInput {j : Keyword} {n : NodeKind} {value : Option TokenKind}
    (h : attribute? j = some (n, value)) : value ≠ some .endOfInput := by
  rintro rfl
  cases j <;> simp [attribute?] at h

theorem matches_attributes : attributeLoop.Matches {
    item? := mainAttribute?
    isClosing := endsBlock
    expected := attributeKeywords.map .keyword ++ [.rightBrace]
    takes := takes_mainAttribute } where
  item k := by
    cases k with
    | keyword j =>
      simp only [attributeLoop, attributeOf?, mainAttribute?]
      cases h : attribute? j with
      | none => exact .none
      | some nodeAndValue => exact .some (follows_mainAttribute (value_ne_endOfInput h))
    | _ => exact .none
  noItem := rfl
  atEnd := by simp [attributeLoop]
  closing k hk := by
    cases k with
    | keyword j => cases j <;> simp [attributeLoop, endsBlock]
    | endOfInput => exact absurd rfl hk
    | _ => simp [attributeLoop, endsBlock]
  resume k hk := by
    cases k with
    | keyword j => cases j <;> decide
    | endOfInput => exact absurd rfl hk
    | _ => decide
  expected := rfl

theorem follows_mainBlock : Follows k mainBlock Grammar.mainBlock :=
  ((follows_keyword _).seq fun _ => (follows_expect (by simp)).seq fun _ =>
    (matches_attributes.follows _).seq fun _ => (follows_expect (by simp)).seq fun _ =>
      follows_steps_nil).within

theorem follows_stateBlock : Follows k (stateBlock flavor) (Grammar.stateBlock flavor) :=
  ((follows_keyword _).seq fun _ => follows_name.seq fun _ => (follows_expect (by simp)).seq fun _ =>
    ((matches_statements flavor).follows _).seq fun _ => (follows_expect (by simp)).seq fun _ =>
      follows_steps_nil).within

theorem matches_blocks (flavor : Flavor) : (blockLoop flavor).Matches {
    item? := block? flavor
    isClosing := fun _ => false
    expected := blockFirst
    takes := takes_block } where
  item k := by
    have hmain : Follows (.keyword .main) (block flavor) (node .block Grammar.mainBlock) :=
      (follows_choice (by simpa using follows_mainBlock)).within
    have hstate : Follows (.keyword .state) (block flavor)
        (node .block (Grammar.stateBlock flavor)) :=
      (follows_choice (by simpa using follows_stateBlock)).within
    cases k with
    | keyword j =>
      cases j
      case main => exact .some hmain
      case state => exact .some hstate
      all_goals exact .none
    | _ => exact .none
  noItem := rfl
  atEnd := by simp [blockLoop]
  closing k hk := by simp [blockLoop, hk]
  resume k _ := by
    cases k with
    | keyword j => cases flavor <;> cases j <;> decide
    | _ => cases flavor <;> decide
  expected := rfl

/-! ### The file -/

/-- The blocks of a file are all that it has, and what is hidden behind them goes into it as well. -/
theorem file_ofDocument (flavor : Flavor) {document : List Token}
    (hdocument : ∀ t ∈ document, t.isEnd = false) :
    let o := (blocks flavor).run [.file] (document.filter (·.isSignificant))
    file flavor (.ofDocument document) =
      some ⟨[], [], [], [(Tree.node .file o.trees).weaveFile document], o.errors⟩ := by
  intro o
  have hready : (start .file (.ofDocument document)).Ready := ⟨by simp [start, ofDocument], hdocument⟩
  have hloop : loop (blockLoop flavor).turn (start .file (ofDocument document)) =
      some ((start .file (ofDocument document)).after o) := (matches_blocks flavor).loop_turn hready
  have hlossless := (blocks flavor).lossless [.file] (document.filter (·.isSignificant))
  have hrest : o.rest = [] := Items.rest_eq_nil (fun _ => rfl) _ _
  have hhidden : ∀ t ∈ (weaveAll o.trees document).2, t.isHidden = true := by
    have hnone : (weaveAll o.trees document).2.filter (·.isSignificant) = [] :=
      (leavesOf_weaveAll o.trees hlossless.symm).2.trans hrest
    intro t ht
    simpa [Token.isSignificant] using List.filter_eq_nil_iff.mp hnone t ht
  -- Behind the last block only hidden tokens are ahead, and they are passed before the file is closed.
  have hpass : (weaveAll o.trees document).2.takeWhile (·.isHidden) = (weaveAll o.trees document).2 :=
    List.takeWhile_eq_self_iff.mpr hhidden
  have hend : (weaveAll o.trees document).2.dropWhile (·.isHidden) = [] :=
    List.dropWhile_eq_nil_iff.mpr hhidden
  rw [file, within, steps, hloop]
  simp only [steps, start, ofDocument, List.isEmpty_nil, if_true, List.nil_append, Option.bind_some,
    Builder.after, passHidden, finish, List.dropLast_singleton]
  rw [hpass, hend]
  rfl

/-- **The builder always comes to the end of the document.** Each turn of each of its loops has a result and takes
a token that the grammar sees, or the loop is over. What the builder leaves has no token of the document ahead, no
rule under way, no node open, and one tree, that of the whole document. -/
theorem file_halts (flavor : Flavor) :
    (∀ resume, Advances (skipTurn resume)) ∧
      (∀ wrapper, Advances (commaTurn wrapper)) ∧
      Advances attributeLoop.turn ∧
      Advances (statementLoop flavor).turn ∧
      Advances (blockLoop flavor).turn ∧
      (∀ s : TokenStream, ∃ tree errors, tree.leaves = s.document ∧
        file flavor (.ofDocument s.document) = some ⟨[], [], [], [tree], errors⟩) ∧
      ∀ source : String,
        file flavor (.ofDocument (TokenStream.ofSource flavor source).document) =
          some ⟨[], [], [], [(parse flavor source).fullTree], (parse flavor source).errors⟩ := by
  have hdocument : ∀ s : TokenStream, ∀ t ∈ s.document, t.isEnd = false := by
    intro s t ht
    simpa using (List.mem_filter.mp ht).2
  refine ⟨advances_skipTurn, advances_commaTurn, matches_attributes.advances,
    (matches_statements flavor).advances, (matches_blocks flavor).advances, fun s => ?_,
    fun source => file_ofDocument flavor (hdocument _)⟩
  exact ⟨_, _, leaves_weaveFile (leavesOf_blocks flavor _ _).symm, file_ofDocument flavor (hdocument s)⟩

end Step

end QuestScript
