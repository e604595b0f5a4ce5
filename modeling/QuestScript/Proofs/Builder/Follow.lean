import QuestScript.Proofs.Builder.Program

/-! # Steps that follow the grammar

A step *follows* a piece of grammar (`Step.Follows`) if it has a result and builds what the piece does. Each
way of putting steps together goes with a way of putting pieces together. For a loop this means that each turn
takes a token (`Advances`): an item takes the token it starts with, and skipping is begun only at a token at
which it does not end (`ItemLoop.Matches`). -/

namespace QuestScript

/-- The turn has a result, and unless the loop is over at once the builder has fewer tokens ahead of it
after the turn than before. -/
def Advances (turn : Builder → Option Turn) : Prop :=
  ∀ b : Builder, b.Ready → ∃ r, turn b = some r ∧
    (r = .stop b ∨ r.builder.significant.length < b.significant.length)

namespace Step
open Grammar Builder QuestScript.Tree

/-- At a token of kind `k` the step has a result and builds what the piece does. -/
def Follows (k : TokenKind) (s : Step) (g : Grammar) : Prop :=
  ∀ b : Builder, b.Ready → b.lookAhead 0 = k → s b = some (b.after (g.run b.rules b.significant))

variable {k j : TokenKind} {kinds : List TokenKind} {s : Step} {ss : List Step} {g : Grammar}
  {gs : List Grammar} {n : NodeKind} {b : Builder} {t : Token} {rest : List Token}

/-! ### Tokens -/

theorem lookAhead_zero (h : b.significant = t :: rest) : b.lookAhead 0 = t.kind := by
  rw [lookAhead, h]
  rfl

theorem lookAhead_nil (h : b.significant = []) : b.lookAhead 0 = .endOfInput := by
  rw [lookAhead, h]
  rfl

theorem exists_significant (h : b.lookAhead 0 = k) (hk : k ≠ .endOfInput) :
    ∃ t rest, b.significant = t :: rest ∧ t.kind = k := by
  cases hs : b.significant with
  | nil => exact absurd ((lookAhead_nil hs).symm.trans h).symm hk
  | cons t rest => exact ⟨t, rest, rfl, (lookAhead_zero hs).symm.trans h⟩

theorem follows_nothing : Follows k some nothing := fun b _ _ => by
  rw [nothing, after_nothing]

theorem follows_take (hk : k ≠ .endOfInput) : Follows k take next := by
  intro b _ ha
  obtain ⟨t, rest, hs, -⟩ := exists_significant ha hk
  rw [take, take_eq hs, hs, next]

theorem follows_take_expect (hk : k ≠ .endOfInput) : Follows k take (Grammar.expect k) := by
  intro b _ ha
  obtain ⟨t, rest, hs, ht⟩ := exists_significant ha hk
  rw [take, take_eq hs, hs]
  simp only [Grammar.expect, Grammar.expectIn, if_pos ht]

theorem follows_missing : Follows k (missing kinds) (Grammar.missing kinds) := by
  intro b _ _
  rw [missing, Grammar.missing, after_errors]
  rfl

theorem follows_eat (hj : j ≠ .endOfInput) : Follows k (eat j) (Grammar.optional j) := by
  intro b hb _
  simp only [eat, Grammar.optional]
  have hahead : kindAhead b.significant = b.lookAhead 0 := rfl
  rw [hahead]
  split
  · rename_i hkind
    rw [← follows_take hj b hb hkind, take]
  · rw [after_nothing]

theorem follows_expectIn (hj : j ≠ .endOfInput) :
    Follows k (expectIn j kinds) (Grammar.expectIn j kinds) := by
  intro b hb _
  have hmissing : some (b.raise .missing kinds) =
      some (b.after ⟨[], b.significant, [.raise .missing kinds b.rules b.significant]⟩) := by
    rw [after_errors, Builder.raise]
  rcases hs : b.significant with _ | ⟨t, _ | ⟨u, rest⟩⟩
  · have hnext := lookAhead_nil hs
    rw [hs] at hmissing
    simp only [expectIn, hnext, Grammar.expectIn, if_neg hj.symm, ne_eq, not_true_eq_false, false_and,
      if_false, hmissing]
  · have hnext : b.lookAhead 1 = .endOfInput := by rw [lookAhead, hs]; rfl
    rw [hs] at hmissing
    simp only [expectIn, lookAhead_zero hs, hnext, Grammar.expectIn, hj.symm, and_false, if_false,
      hmissing]
    split
    · rw [take_eq hs]
    · rfl
  · have hnext : b.lookAhead 1 = u.kind := by rw [lookAhead, hs]; rfl
    have hkind : t.kind ≠ .endOfInput := hb.kind_ne (hs ▸ List.mem_cons_self)
    rw [hs] at hmissing
    simp only [expectIn, lookAhead_zero hs, hnext, Grammar.expectIn, ne_eq, hkind, not_false_eq_true,
      true_and, hmissing]
    split
    · rw [take_eq hs]
    · split
      · -- The error is raised first, then the stray token is skipped and the demanded one taken.
        have hraise : (b.raise .extraneous kinds).significant = t :: u :: rest := hs
        have hskip := skip_eq hraise
        have hleft : ((b.raise .extraneous kinds).after ⟨[skipped t], u :: rest, []⟩).significant =
            u :: rest := significant_after (by rw [hraise]; simp)
        rw [hskip, take_eq hleft, after_after rest]
        have herror : b.raise .extraneous kinds = b.after ⟨[], t :: u :: rest,
            [.raise .extraneous kinds b.rules b.significant]⟩ := by
          rw [after_errors, Builder.raise]
        rw [herror, after_after rest, hs]
        rfl
      · rfl

theorem follows_expect (hj : j ≠ .endOfInput) : Follows k (expect j) (Grammar.expect j) :=
  follows_expectIn hj

/-! ### Steps put together -/

theorem follows_steps_nil : Follows k (steps []) (seq []) := follows_nothing

theorem Follows.seq (hs : Follows k s g) (hss : ∀ j, Follows j (steps ss) (Grammar.seq gs)) :
    Follows k (steps (s :: ss)) (Grammar.seq (g :: gs)) := by
  intro b hb ha
  have hlossless := g.lossless b.rules b.significant
  have hnext := hss _ (b.after (g.run b.rules b.significant)) (hb.after hlossless) rfl
  rw [significant_after hlossless, after_after] at hnext
  rw [steps, hs b hb ha, Option.bind_some]
  exact hnext

theorem Follows.within (hs : Follows k s g) : Follows k (within n s) (g.node n) := by
  intro b hb ha
  have hstart : b.start n = { b.passHidden with
      rules := b.rules ++ [n], opened := (n, b.passHidden.built) :: b.opened, built := [] } := by
    have hempty : b.rules.isEmpty = false := by simpa using hb.inRule
    simp only [start, hempty, Bool.false_eq_true, if_false]
    rfl
  have hsignificant : (b.start n).significant = b.significant := by
    rw [hstart]
    exact significant_passHidden
  have hrules : (b.start n).rules = b.rules ++ [n] := by rw [hstart]
  have hready : (b.start n).Ready := by
    refine hb.of_sublist (by rw [hrules]; simp) ?_
    rw [hstart]
    exact List.dropWhile_sublist _
  have hahead : (b.start n).lookAhead 0 = k := by rw [lookAhead, hsignificant, ← ha, lookAhead]
  rw [Step.within, hs _ hready hahead, Option.bind_some, hsignificant, hrules, finish_start hb]
  rfl

theorem follows_byKind {choose : TokenKind → Step} {choose' : TokenKind → Grammar}
    (h : Follows k (choose k) (choose' k)) : Follows k (byKind choose) (Grammar.byKind choose') := by
  intro b hb ha
  have hahead : kindAhead b.significant = k := ha
  have hrun := h b hb ha
  simp only [byKind, ha, Grammar.byKind, hahead]
  exact hrun

theorem follows_choice {choose : TokenKind → Step} (h : Follows k (choose k) g) :
    Follows k (byKind choose) g := by
  intro b hb ha
  have hrun := h b hb ha
  simp only [byKind, ha]
  exact hrun

/-! ### Loops -/

theorem loop_again {turn : Builder → Option Turn} {b' : Builder} (h : turn b = some (.again b')) :
    loop turn b = loop turn b' := by
  rw [loop, h]
  rfl

theorem loop_stop {turn : Builder → Option Turn} {b' : Builder} (h : turn b = some (.stop b')) :
    loop turn b = some b' := by
  rw [loop, h]
  rfl

theorem advances_skipTurn (resume : List TokenKind) : Advances (skipTurn resume) := by
  intro b hb
  unfold skipTurn
  split
  · exact ⟨.stop b, rfl, Or.inl rfl⟩
  · rename_i hnext
    obtain ⟨t, rest, hs, -⟩ := exists_significant (b := b) rfl fun h => hnext (Or.inl h)
    refine ⟨_, rfl, Or.inr ?_⟩
    have hleft : (b.after ⟨[skipped t], rest, []⟩).significant = rest :=
      significant_after (by rw [hs]; simp)
    rw [Turn.builder, skip_eq hs, hleft, hs]
    exact Nat.lt_succ_self _

theorem loop_skipTurn {resume : List TokenKind} {p : Token → Bool} (hb : b.Ready)
    (hp : ∀ u ∈ b.significant, p u = true ↔ u.kind ∉ resume) :
    loop (skipTurn resume) b = some (b.after
      ⟨(b.significant.takeWhile p).map skipped, b.significant.dropWhile p, []⟩) := by
  generalize hs : b.significant = tokens
  induction tokens generalizing b with
  | nil =>
    have hend := lookAhead_nil hs
    have hturn : skipTurn resume b = some (.stop b) := by rw [skipTurn, if_pos (Or.inl hend)]
    rw [loop_stop hturn, List.takeWhile_nil, List.map_nil, after_nothing]
  | cons t rest ih =>
    have ht : t ∈ b.significant := hs ▸ List.mem_cons_self
    by_cases hresume : t.kind ∈ resume
    · have hturn : skipTurn resume b = some (.stop b) := by
        rw [skipTurn, if_pos (Or.inr (by rwa [lookAhead_zero hs]))]
      have hends : ¬ p t = true := fun h => (hp t ht).mp h hresume
      rw [loop_stop hturn, List.takeWhile_cons_of_neg hends, List.map_nil, after_nothing]
    · have hturn : skipTurn resume b = some (.again b.skip) := by
        rw [skipTurn, if_neg (by rw [lookAhead_zero hs]; exact not_or.mpr ⟨hb.kind_ne ht, hresume⟩)]
      have hlossless : leavesOf [skipped t] ++ rest = b.significant := by rw [hs]; simp
      have hleft : (b.after ⟨[skipped t], rest, []⟩).significant = rest := significant_after hlossless
      have hp' : ∀ u ∈ (b.after ⟨[skipped t], rest, []⟩).significant, p u = true ↔ u.kind ∉ resume := by
        intro u hu
        rw [hleft] at hu
        exact hp u (hs ▸ List.mem_cons_of_mem t hu)
      have hrest := ih (hb.after hlossless) hp' hleft
      have hskips : p t = true := (hp t ht).mpr hresume
      rw [loop_again hturn, skip_eq hs, hrest, after_after (rest.dropWhile p),
        List.takeWhile_cons_of_pos hskips, List.dropWhile_cons_of_pos hskips]
      rfl

/-- Where skipping does not end at the next token, the tokens up to the first at which it does are skipped
with one error. -/
theorem recover_eq {expected resume : List TokenKind} {p : Token → Bool} (hb : b.Ready)
    (hs : b.significant = t :: rest) (hp : ∀ u ∈ b.significant, p u = true ↔ u.kind ∉ resume)
    (ht : p t = true) : recover expected resume b = some (b.after
      ⟨(t :: rest.takeWhile p).map skipped, rest.dropWhile p,
        [.raise .mismatched expected b.rules (t :: rest)]⟩) := by
  have hraise : (b.raise .mismatched expected).significant = t :: rest := hs
  have hready : (b.raise .mismatched expected).Ready := ⟨hb.inRule, hb.inDocument⟩
  have herror : b.raise .mismatched expected = b.after ⟨[], t :: rest,
      [.raise .mismatched expected b.rules (t :: rest)]⟩ := by
    rw [after_errors, Builder.raise, hs]
  rw [recover, loop_skipTurn hready hp, hraise, List.takeWhile_cons_of_pos ht,
    List.dropWhile_cons_of_pos ht, herror, after_after (rest.dropWhile p)]
  rfl

end Step

namespace ItemLoop
open Grammar Builder

/-- **The loop goes round as the list of items does.** It is over at what ends the list and at the end of the
document, and skipping ends at every token at which the loop does anything but skip. -/
structure Matches (l : ItemLoop) (s : Items) : Prop where
  /-- The items start with the same tokens and build the same. -/
  item (k : TokenKind) : Option.Rel (Step.Follows k) (l.item? k) (s.item? k)
  /-- No item starts at the end of the document. -/
  noItem : s.item? .endOfInput = none
  /-- The loop is over at the end of the document. -/
  atEnd : .endOfInput ∈ l.closing
  /-- Elsewhere the loop is over where the list ends. -/
  closing (k : TokenKind) : k ≠ .endOfInput → (k ∈ l.closing ↔ s.isClosing k = true)
  /-- Skipping goes on at the tokens with which neither an item nor what follows the list starts. -/
  resume (k : TokenKind) : k ≠ .endOfInput → (s.isStray k = true ↔ k ∉ l.resume)
  /-- The errors say the same. -/
  expected : l.expected = s.expected

variable {l : ItemLoop} {s : Items} {b : Builder} {t : Token} {rest : List Token}

theorem Matches.turn_item {g : Grammar} (h : l.Matches s) (hb : b.Ready)
    (hg : s.item? (b.lookAhead 0) = some g) :
    l.turn b = some (.again (b.after (g.run b.rules b.significant))) := by
  have hitem := h.item (b.lookAhead 0)
  rw [hg] at hitem
  cases hl : l.item? (b.lookAhead 0) with
  | none => rw [hl] at hitem; cases hitem
  | some item =>
    rw [hl] at hitem
    cases hitem with
    | some hfollows =>
      have hrun : item b = some (b.after (g.run b.rules b.significant)) := hfollows b hb rfl
      simp only [turn, hl, hrun, Option.map_some]

theorem Matches.item?_eq_none {k : TokenKind} (h : l.Matches s) (hk : s.item? k = none) :
    l.item? k = none := by
  have hitem := h.item k
  rw [hk] at hitem
  cases hl : l.item? k with
  | none => rfl
  | some item => rw [hl] at hitem; cases hitem

theorem Matches.turn_stop (h : l.Matches s) (hk : s.item? (b.lookAhead 0) = none)
    (hclosing : b.lookAhead 0 ∈ l.closing) : l.turn b = some (.stop b) := by
  rw [turn, h.item?_eq_none hk]
  exact if_pos hclosing

theorem Matches.turn_stray (h : l.Matches s) (hb : b.Ready) (hs : b.significant = t :: rest)
    (hk : s.item? t.kind = none) (hclosing : ¬ s.isClosing t.kind = true) :
    l.turn b = some (.again (b.after
      ⟨(t :: rest.takeWhile (s.isStray ·.kind)).map skipped, rest.dropWhile (s.isStray ·.kind),
        [.raise .mismatched s.expected b.rules (t :: rest)]⟩)) := by
  have hkind : t.kind ≠ .endOfInput := hb.kind_ne (hs ▸ List.mem_cons_self)
  have hstray : s.isStray t.kind = true := by simp [Items.isStray, hk, hclosing]
  have hrecover : Step.recover l.expected l.resume b = some (b.after
      ⟨(t :: rest.takeWhile (s.isStray ·.kind)).map skipped, rest.dropWhile (s.isStray ·.kind),
        [.raise .mismatched l.expected b.rules (t :: rest)]⟩) :=
    Step.recover_eq hb hs (fun u hu => h.resume u.kind (hb.kind_ne hu)) hstray
  have hopen : t.kind ∉ l.closing := fun hc => hclosing ((h.closing t.kind hkind).mp hc)
  rw [turn, Step.lookAhead_zero hs, h.item?_eq_none hk, ← h.expected]
  simp only [hopen, if_false, hrecover, Option.map_some]

/-- **Each turn of the loop takes a token**, or the loop is over. -/
theorem Matches.advances (h : l.Matches s) : Advances l.turn := by
  intro b hb
  rcases hs : b.significant with _ | ⟨t, rest⟩
  · have hend := Step.lookAhead_nil hs
    exact ⟨_, h.turn_stop (hend ▸ h.noItem) (hend ▸ h.atEnd), Or.inl rfl⟩
  · have hahead := Step.lookAhead_zero hs
    have hkind : t.kind ≠ .endOfInput := hb.kind_ne (hs ▸ List.mem_cons_self)
    cases hg : s.item? t.kind with
    | some g =>
      refine ⟨_, h.turn_item hb (hahead ▸ hg), Or.inr ?_⟩
      have hshort := s.takes hg b.rules t rest rfl
      rw [Turn.builder, significant_after (g.lossless _ _), hs, List.length_cons]
      omega
    | none =>
      by_cases hclosing : s.isClosing t.kind = true
      · have hover := (h.closing t.kind hkind).mpr hclosing
        exact ⟨_, h.turn_stop (hahead ▸ hg) (hahead ▸ hover), Or.inl rfl⟩
      · refine ⟨_, h.turn_stray hb hs hg hclosing, Or.inr ?_⟩
        have hshort := (List.dropWhile_sublist (l := rest) (s.isStray ·.kind)).length_le
        rw [Turn.builder, significant_after (by rw [hs]; simp), List.length_cons]
        exact Nat.lt_succ_of_le hshort

theorem Matches.loop_turn (h : l.Matches s) (hb : b.Ready) :
    Step.loop l.turn b = some (b.after (s.run b.rules b.significant)) := by
  generalize hs : b.significant = ahead
  generalize hr : b.rules = rules
  fun_induction s.run rules ahead generalizing b with
  | case1 =>
    have hend := Step.lookAhead_nil hs
    rw [Step.loop_stop (h.turn_stop (hend ▸ h.noItem) (hend ▸ h.atEnd)), after_nothing]
  | case2 t others g hg o more =>
    rename_i ih
    have hturn := h.turn_item hb (Step.lookAhead_zero hs ▸ hg)
    have hlossless := g.lossless b.rules b.significant
    rw [Step.loop_again hturn, hs, hr]
    rw [hs, hr] at hlossless
    rw [ih (hb.after (hs ▸ hlossless)) (significant_after (hs ▸ hlossless)) hr, after_after more.rest]
  | case3 t others hg hclosing =>
    have hkind : t.kind ≠ .endOfInput := hb.kind_ne (hs ▸ List.mem_cons_self)
    have hahead := Step.lookAhead_zero hs
    have hover := (h.closing t.kind hkind).mpr hclosing
    rw [Step.loop_stop (h.turn_stop (hahead ▸ hg) (hahead ▸ hover)), after_nothing]
  | case4 t others hg hclosing stray more =>
    rename_i ih
    have hturn := h.turn_stray hb hs hg hclosing
    have hlossless : Tree.leavesOf (stray.map skipped) ++ others.dropWhile (s.isStray ·.kind) =
        b.significant := by rw [hs]; simp [stray]
    rw [hr] at hturn
    rw [Step.loop_again hturn, ih (hb.after hlossless) (significant_after hlossless) hr,
      after_after more.rest]
    rfl

/-- A loop that matches a list of items follows it, wherever it starts. -/
theorem Matches.follows (h : l.Matches s) (k : TokenKind) :
    Step.Follows k (Step.loop l.turn) (listOf s) :=
  fun _ hb _ => h.loop_turn hb

end ItemLoop

end QuestScript
