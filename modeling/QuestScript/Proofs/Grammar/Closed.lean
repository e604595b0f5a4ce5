import QuestScript.Proofs.Grammar.Header

/-! # Headers behind a closing brace

What is inside a block takes no closing brace, nor does it skip one in front of the keyword of a state
(`Grammar.Leaves`). So where the header of a state stands right behind a closing brace, whatever errors
come before, the brace ends what is before and the header opens a block (`Parse.opens_behind_brace`). -/

namespace QuestScript

namespace Header
variable {h : Header} {brace t u : Token} {after ahead others : List Token}

/-- The header of a state behind a closing brace, and what follows. -/
def Behind (h : Header) (brace : Token) (after ts : List Token) : Prop :=
  brace.kind = .rightBrace ∧ brace :: h.tokens after <:+ ts

theorem Behind.tail (hs : h.Behind brace after (t :: ahead)) (ht : t.kind ≠ .rightBrace) :
    h.Behind brace after ahead := by
  rcases List.suffix_cons_iff.mp hs.2 with heq | hsuffix
  · obtain ⟨rfl, -⟩ := List.cons.inj heq
    exact absurd hs.1 ht
  · exact ⟨hs.1, hsuffix⟩

theorem Behind.tail_or (hs : h.Behind brace after (t :: ahead)) :
    h.Behind brace after ahead ∨ ahead = h.tokens after :=
  (List.suffix_cons_iff.mp hs.2).symm.imp (⟨hs.1, ·⟩) fun heq => (List.cons.inj heq).2.symm

theorem Behind.ne_nil (hs : h.Behind brace after ahead) : ahead ≠ [] := by
  rintro rfl
  cases List.suffix_nil.mp hs.2

/-- A token that stands second is no closing brace in front of the header, unless it is of the kind of
the first. -/
theorem Behind.tail_tail (hs : h.Behind brace after (t :: u :: others)) (hu : u.kind ≠ .rightBrace)
    (hstate : u.kind ≠ .keyword .state) : h.Behind brace after others := by
  rcases hs.tail_or with hs | heq
  · exact hs.tail hu
  · obtain ⟨rfl, -⟩ := List.cons.inj heq
    exact absurd h.keyword_kind hstate

theorem Behind.dropWhile {p : Token → Bool} {ts : List Token} (hs : h.Behind brace after ts)
    (hp : p brace = false) : h.Behind brace after (ts.dropWhile p) := by
  induction ts with
  | nil => exact hs
  | cons t ts ih =>
    by_cases ht : p t = true
    · rw [List.dropWhile_cons_of_pos ht]
      rcases List.suffix_cons_iff.mp hs.2 with heq | hsuffix
      · rw [← (List.cons.inj heq).1, hp] at ht
        cases ht
      · exact ih ⟨hs.1, hsuffix⟩
    · rwa [List.dropWhile_cons_of_neg ht]

/-- Skipping what starts no block does not go past the header. -/
theorem Behind.dropWhile_or {p : Token → Bool} {ts : List Token} (hs : h.Behind brace after ts)
    (hp : p h.keyword = false) :
    h.Behind brace after (ts.dropWhile p) ∨ ts.dropWhile p = h.tokens after := by
  induction ts with
  | nil => exact absurd rfl hs.ne_nil
  | cons t ts ih =>
    by_cases ht : p t = true
    · rw [List.dropWhile_cons_of_pos ht]
      rcases hs.tail_or with hs | rfl
      · exact ih hs
      · exact .inr (List.dropWhile_cons_of_neg (by simp [hp]))
    · rw [List.dropWhile_cons_of_neg ht]
      exact .inl hs

end Header

/-! ### Pieces that leave the brace -/

namespace Grammar
open Header

/-- Where a token of kind `k` is ahead, the piece leaves the closing brace before the header. -/
def Leaves (h : Header) (brace : Token) (after : List Token) (k : TokenKind) (g : Grammar) : Prop :=
  ∀ rules ahead, h.Behind brace after ahead → kindAhead ahead = k →
    h.Behind brace after (g.run rules ahead).rest

variable {h : Header} {brace : Token} {after : List Token} {flavor : Flavor} {n : NodeKind}
  {j k : TokenKind} {g g' : Grammar} {gs : List Grammar}

theorem leaves_nothing : Leaves h brace after k nothing := fun _ _ hs _ => hs

theorem leaves_missing {kinds : List TokenKind} : Leaves h brace after k (missing kinds) :=
  fun _ _ hs _ => hs

theorem leaves_next (hk : k ≠ .rightBrace) : Leaves h brace after k next := by
  intro rules ahead hs ha
  cases ahead with
  | nil => exact hs
  | cons t ahead =>
    change t.kind = k at ha
    exact hs.tail (ha ▸ hk)

theorem leaves_optional (hj : j ≠ .rightBrace) : Leaves h brace after k (optional j) := by
  intro rules ahead hs ha
  simp only [optional]
  split
  · rename_i hahead
    exact leaves_next hj rules ahead hs hahead
  · exact hs

/-- **A demanded token other than a closing brace** is taken from before it. -/
theorem leaves_expectIn {kinds : List TokenKind} (hbrace : j ≠ .rightBrace)
    (hstate : j ≠ .keyword .state) : Leaves h brace after k (expectIn j kinds) := by
  intro rules ahead hs _
  rcases ahead with _ | ⟨t, _ | ⟨u, others⟩⟩
  · exact hs
  · simp only [expectIn]
    split
    · rename_i ht
      exact hs.tail (ht ▸ hbrace)
    · exact hs
  · simp only [expectIn]
    split
    · rename_i ht
      exact hs.tail (ht ▸ hbrace)
    · split
      · rename_i hu
        exact hs.tail_tail (hu ▸ hbrace) (hu ▸ hstate)
      · exact hs

theorem leaves_expect_ahead (hk : k ≠ .rightBrace) : Leaves h brace after k (expect k) := by
  intro rules ahead hs ha
  cases ahead with
  | nil => exact hs
  | cons t ahead =>
    change t.kind = k at ha
    simp only [expect, expectIn, if_pos ha]
    exact hs.tail (ha ▸ hk)

/-! ### Putting pieces together -/

theorem Leaves.andThen (hg : Leaves h brace after k g) (hg' : ∀ j, Leaves h brace after j g') :
    Leaves h brace after k (g.andThen g') :=
  fun rules ahead hs ha => hg' _ rules _ (hg rules ahead hs ha) rfl

theorem leaves_seq_nil : Leaves h brace after k (seq []) := leaves_nothing

theorem Leaves.seq (hg : Leaves h brace after k g)
    (hgs : ∀ j, Leaves h brace after j (Grammar.seq gs)) :
    Leaves h brace after k (Grammar.seq (g :: gs)) :=
  hg.andThen hgs

theorem Leaves.node (hg : Leaves h brace after k g) : Leaves h brace after k (g.node n) :=
  fun rules ahead hs ha => hg (rules ++ [n]) ahead hs ha

theorem leaves_byKind {choose : TokenKind → Grammar} (hg : Leaves h brace after k (choose k)) :
    Leaves h brace after k (byKind choose) := by
  intro rules ahead hs ha
  subst ha
  exact hg rules ahead hs rfl

/-- **A list that a closing brace ends** leaves the brace if its items do. -/
theorem leaves_listOf {s : Items} (hclosing : s.isStray .rightBrace = false)
    (hitem : ∀ j g, s.item? j = some g → Leaves h brace after j g) :
    Leaves h brace after k (listOf s) := by
  intro rules ahead hs ha
  clear ha
  change h.Behind brace after (s.run rules ahead).rest
  fun_induction s.run rules ahead with
  | case1 => exact hs
  | case2 t others g hg a b ih => exact ih (hitem t.kind g hg rules _ hs rfl)
  | case3 t others hi hc => exact hs
  | case4 t others hi hc stray b ih =>
    have ht : t.kind ≠ .rightBrace := by
      intro ht
      simp [Items.isStray, ← ht, hi, hc] at hclosing
    exact ih ((hs.tail ht).dropWhile (by rw [hs.1, hclosing]))

/-! ### Statements and attributes -/

theorem leaves_literal (hk : k ∈ literalFirst) : Leaves h brace after k literal :=
  (leaves_next (by rintro rfl; simp [literalFirst] at hk)).node

theorem leaves_moreArguments {wrapper : NodeKind} (rules : List NodeKind) (ahead : List Token)
    (hs : h.Behind brace after ahead) : h.Behind brace after (moreArguments wrapper rules ahead).rest := by
  fun_induction moreArguments wrapper rules ahead with
  | case1 => exact hs
  | case2 comma hcomma t others ht more ih =>
    refine ih ((hs.tail (by simp [hcomma])).tail ?_)
    intro hbrace
    simp [hbrace, literalFirst] at ht
  | case3 comma hcomma t others ht => exact hs.tail (by simp [hcomma])
  | case4 comma hcomma => exact hs.tail (by simp [hcomma])
  | case5 => exact hs

theorem leaves_arguments {wrapper : NodeKind} (hk : k ∈ literalFirst) :
    Leaves h brace after k (arguments wrapper) :=
  Leaves.node <| (leaves_literal hk).node.seq fun _ =>
    Leaves.seq (fun rules ahead hs _ => leaves_moreArguments rules ahead hs) fun _ => leaves_seq_nil

theorem leaves_argumentList {wrapper : NodeKind} : Leaves h brace after k (argumentList wrapper) := by
  refine leaves_byKind ?_
  split
  · rename_i hk
    subst hk
    refine Leaves.node <| (leaves_expect_ahead (by simp)).seq fun j =>
      Leaves.seq (leaves_byKind ?_) fun _ => leaves_seq_nil
    split
    · rename_i hj
      exact (leaves_arguments hj).seq fun _ =>
        (leaves_expectIn (by simp) (by simp)).seq fun _ => leaves_seq_nil
    · exact leaves_expectIn (by simp) (by simp)
  · exact leaves_missing

theorem leaves_semicolon : Leaves h brace after k semicolon := leaves_optional (by simp)

theorem leaves_leader {j : Keyword} : Leaves h brace after (.keyword j) (keyword j) :=
  leaves_expect_ahead (by simp)

theorem leaves_name : Leaves h brace after k (expect .identifier) :=
  leaves_expectIn (by simp) (by simp)

theorem leaves_description : Leaves h brace after (.keyword .description) description :=
  Leaves.node <| leaves_leader.seq fun _ => (leaves_expectIn (by simp) (by simp)).seq fun _ =>
    leaves_semicolon.seq fun _ => leaves_seq_nil

theorem leaves_officialRule : Leaves h brace after (.keyword .rule) officialRule :=
  Leaves.node <| leaves_leader.seq fun _ => leaves_name.seq fun _ => leaves_argumentList.seq fun _ =>
    (leaves_expectIn (by simp) (by simp)).seq fun _ => leaves_name.seq fun _ =>
    leaves_semicolon.seq fun _ => leaves_seq_nil

theorem leaves_officialAction : Leaves h brace after (.keyword .action) officialAction :=
  Leaves.node <| leaves_leader.seq fun _ => leaves_name.seq fun _ => leaves_argumentList.seq fun _ =>
    leaves_semicolon.seq fun _ => leaves_seq_nil

theorem leaves_expression (hk : k ∈ expressionFirst) : Leaves h brace after k expression := by
  refine Leaves.node (leaves_byKind ?_)
  split
  · rename_i hidentifier
    subst hidentifier
    exact Leaves.node <| (leaves_expect_ahead (by simp)).seq fun _ =>
      leaves_argumentList.seq fun _ => leaves_seq_nil
  · split
    · rename_i _ hgoto
      subst hgoto
      exact Leaves.node <| leaves_leader.seq fun _ => leaves_name.seq fun _ => leaves_seq_nil
    · rename_i hidentifier hgoto
      refine leaves_literal ?_
      simpa [expressionFirst, literalFirst, hidentifier, hgoto] using hk

theorem leaves_expressions (operands : Nat) : Leaves h brace after k (expressions operands) := by
  induction operands generalizing k with
  | zero => exact leaves_nothing
  | succ operands ih =>
    refine leaves_byKind ?_
    split
    · rename_i hk
      exact (leaves_expression hk).seq fun _ => ih.seq fun _ => leaves_seq_nil
    · exact leaves_missing

theorem leaves_operandStatement {j : Keyword} (operands : Nat) :
    Leaves h brace after (.keyword j) (operandStatement n j operands) :=
  Leaves.node <| leaves_leader.seq fun _ => (leaves_expressions operands).seq fun _ =>
    leaves_semicolon.seq fun _ => leaves_seq_nil

theorem leaves_statement (hg : statement? flavor k = some g) : Leaves h brace after k g := by
  cases k <;> simp only [statement?, reduceCtorEq, Option.map_eq_some_iff] at hg
  rename_i j
  obtain ⟨body, hbody, rfl⟩ := hg
  refine Leaves.node ?_
  cases flavor <;> cases j <;>
    simp only [statementBody?, Option.some.injEq, reduceCtorEq] at hbody <;> subst hbody
  · exact leaves_description
  · exact leaves_officialRule
  · exact leaves_officialAction
  · exact leaves_description
  all_goals exact leaves_operandStatement _

theorem leaves_mainAttribute (hg : mainAttribute? k = some g) : Leaves h brace after k g := by
  cases k <;> simp only [mainAttribute?, reduceCtorEq, Option.map_eq_some_iff] at hg
  rename_i j
  obtain ⟨⟨m, value⟩, hvalue, rfl⟩ := hg
  have hexpect : ∀ i, Leaves h brace after i ((value.map expect).getD nothing) := by
    intro i
    cases j <;> simp only [attribute?, Option.some.injEq, Prod.mk.injEq, reduceCtorEq] at hvalue <;>
      obtain ⟨-, rfl⟩ := hvalue <;>
      first | exact leaves_nothing | exact leaves_expectIn (by simp) (by simp)
  exact Leaves.node <| Leaves.node <| leaves_leader.seq fun _ => (hexpect _).seq fun _ =>
    leaves_semicolon.seq fun _ => leaves_seq_nil

/-! ### Blocks -/

/-- Where a token of kind `k` is ahead, the piece leaves the closing brace before the header or takes
it last. -/
def Passes (h : Header) (brace : Token) (after : List Token) (k : TokenKind) (g : Grammar) : Prop :=
  ∀ rules ahead, h.Behind brace after ahead → kindAhead ahead = k →
    h.Behind brace after (g.run rules ahead).rest ∨ (g.run rules ahead).rest = h.tokens after

theorem Passes.node (hg : Passes h brace after k g) : Passes h brace after k (g.node n) :=
  fun rules ahead hs ha => hg (rules ++ [n]) ahead hs ha

/-- What leaves the brace may come before what takes it. -/
theorem Leaves.passes (hg : Leaves h brace after k g)
    (hgs : ∀ j, Passes h brace after j (Grammar.seq gs)) :
    Passes h brace after k (Grammar.seq (g :: gs)) :=
  fun rules ahead hs ha => hgs _ rules _ (hg rules ahead hs ha) rfl

/-- The end of a block takes a brace, and at most one token before it. -/
theorem passes_rightBrace : Passes h brace after k (Grammar.seq [expect .rightBrace]) := by
  intro rules ahead hs _
  rcases ahead with _ | ⟨t, _ | ⟨u, others⟩⟩
  · exact .inl hs
  · simp only [Grammar.seq, Grammar.andThen, nothing, expect, expectIn]
    split
    · exact hs.tail_or
    · exact .inl hs
  · simp only [Grammar.seq, Grammar.andThen, nothing, expect, expectIn]
    split
    · exact hs.tail_or
    · rename_i ht
      split
      · exact (hs.tail ht).tail_or
      · exact .inl hs

theorem passes_mainBlock : Passes h brace after (.keyword .main) mainBlock :=
  Passes.node <| leaves_leader.passes fun _ => (leaves_expectIn (by simp) (by simp)).passes fun _ =>
    (leaves_listOf rfl fun _ _ hg => leaves_mainAttribute hg).passes fun _ => passes_rightBrace

theorem passes_stateBlock : Passes h brace after (.keyword .state) (stateBlock flavor) :=
  Passes.node <| leaves_leader.passes fun _ => leaves_name.passes fun _ =>
    (leaves_expectIn (by simp) (by simp)).passes fun _ =>
    (leaves_listOf (by cases flavor <;> rfl) fun _ _ hg => leaves_statement hg).passes fun _ =>
    passes_rightBrace

theorem passes_block (hg : block? flavor k = some g) : Passes h brace after k g := by
  unfold block? at hg
  split at hg <;> simp only [Option.some.injEq, reduceCtorEq] at hg <;> subst hg
  · exact passes_mainBlock.node
  · exact passes_stateBlock.node

/-- **The blocks of a file** come to the header, which opens one of them. -/
theorem opens_blocks (rules : List NodeKind) {ahead : List Token}
    (hs : h.Behind brace after ahead ∨ ahead = h.tokens after) :
    h.Opens ((blocks flavor).run rules ahead).trees := by
  let items : Items := ⟨block? flavor, fun _ => false, blockFirst, takes_block⟩
  change h.Opens (items.run rules ahead).trees
  have hstray : items.isStray h.keyword.kind = false := by
    rw [h.keyword_kind]
    rfl
  fun_induction items.run rules ahead with
  | case1 =>
    rcases hs with hs | hs
    · exact absurd rfl hs.ne_nil
    · cases hs
  | case2 t others g hg a b ih =>
    rcases hs with hs | heq
    · obtain ⟨cs, hcs⟩ := ih (passes_block hg rules _ hs rfl)
      exact ⟨cs, by rw [Tree.subtreesOf_append]; exact List.mem_append_right _ hcs⟩
    · have hstate : t.kind = .keyword .state := by
        rw [(List.cons.inj heq).1, h.keyword_kind]
      obtain rfl : (stateBlock flavor).node .block = g := by
        rw [hstate] at hg
        exact Option.some.inj hg
      have hopens : h.Opens ((stateBlock flavor).run (rules ++ [.block]) (h.tokens after)).trees :=
        opens_stateBlock _
      obtain ⟨cs, hcs⟩ := hopens
      rw [← heq] at hcs
      refine ⟨cs, ?_⟩
      rw [Tree.subtreesOf_append]
      refine List.mem_append_left _ (Tree.mem_subtreesOf.mpr ⟨_, List.mem_singleton_self _, ?_⟩)
      exact Tree.mem_subtrees_node.mpr (.inr hcs)
  | case3 t others hi hc => cases hc
  | case4 t others hi hc stray b ih =>
    have hbehind : h.Behind brace after others ∨ others = h.tokens after := by
      rcases hs with hs | heq
      · exact hs.tail_or
      · rw [(List.cons.inj heq).1, h.keyword_kind] at hi
        cases hi
    have hdrop : h.Behind brace after (others.dropWhile (items.isStray ·.kind)) ∨
        others.dropWhile (items.isStray ·.kind) = h.tokens after := by
      rcases hbehind with hs | rfl
      · exact hs.dropWhile_or hstray
      · exact .inr (List.dropWhile_cons_of_neg (by simp [hstray]))
    obtain ⟨cs, hcs⟩ := ih hdrop
    exact ⟨cs, by rw [Tree.subtreesOf_append]; exact List.mem_append_right _ hcs⟩

end Grammar

/-! ### Documents -/

namespace Parse

/-- **The header of a state behind a closing brace opens a block**, whatever errors come before. -/
theorem opens_behind_brace (flavor : Flavor) (source : String) {h : Header} {brace : Token}
    {before after : List Token} (hbrace : brace.kind = .rightBrace)
    (hahead : (parse flavor source).stream.significant = before ++ brace :: h.tokens after) :
    h.Opens [(parse flavor source).tree] := by
  have hopens : h.Opens ((Grammar.blocks flavor).run [.file]
      (parse flavor source).stream.significant).trees :=
    Grammar.opens_blocks [.file] (.inl ⟨hbrace, before, hahead.symm⟩)
  obtain ⟨cs, hcs⟩ := hopens
  refine ⟨cs, Tree.mem_subtreesOf.mpr ⟨_, List.mem_singleton_self _, ?_⟩⟩
  exact Tree.mem_subtrees_node.mpr (.inr hcs)

end Parse

end QuestScript
