import QuestScript.Grammar.SyntaxError
import QuestScript.Tree.Basic

/-! # Pieces of grammar

A piece of grammar takes significant tokens from the front of those ahead and makes trees of them.
It never fails: where the tokens do not fit it records an error and goes on, either without the
token it wants or after skipping some. Whatever it does, the leaves of its trees followed by the
tokens it leaves are the tokens it was given (`Grammar.lossless`), so no token is ever lost,
repeated or moved.

Pieces are put together by `seq` and `node`; `listOf` repeats an item and skips what cannot start
one. An item takes at least the token it starts with, so the repetition ends. -/

namespace QuestScript

/-- What a piece of grammar makes of the tokens ahead. -/
structure Outcome where
  /-- The trees built. -/
  trees : List Tree
  /-- The tokens left for what follows. -/
  rest : List Token
  /-- The errors, in the order in which they were raised. -/
  errors : List SyntaxError

/-- The kind of the token ahead. -/
def kindAhead (ahead : List Token) : TokenKind :=
  (ahead.head?.map (·.kind)).getD .endOfInput

/-- A piece of grammar, run inside some rules (the outermost first) on the tokens ahead. -/
structure Grammar where
  /-- What the piece makes of the tokens ahead. -/
  run : (rules : List NodeKind) → (ahead : List Token) → Outcome
  /-- Every token ends up in a tree or is left. -/
  lossless (rules : List NodeKind) (ahead : List Token) :
    Tree.leavesOf (run rules ahead).trees ++ (run rules ahead).rest = ahead

namespace Grammar

theorem length_rest_le (g : Grammar) (rules : List NodeKind) (ahead : List Token) :
    (g.run rules ahead).rest.length ≤ ahead.length := by
  have h := congrArg List.length (g.lossless rules ahead)
  rw [List.length_append] at h
  omega

/-! ### Tokens -/

/-- Takes nothing. -/
def nothing : Grammar where
  run _ ahead := ⟨[], ahead, []⟩
  lossless _ _ := rfl

/-- Takes the token ahead, whatever it is. -/
def next : Grammar where
  run _
    | [] => ⟨[], [], []⟩
    | t :: ahead => ⟨[.token t], ahead, []⟩
  lossless _ ahead := by cases ahead <;> simp

/-- Takes the token ahead if it is of the kind. -/
def optional (k : TokenKind) : Grammar where
  run rules ahead := if kindAhead ahead = k then next.run rules ahead else ⟨[], ahead, []⟩
  lossless rules ahead := by split <;> simp [next.lossless]

/-- Takes nothing and records that one of `kinds` is missing. -/
def missing (kinds : List TokenKind) : Grammar where
  run rules ahead := ⟨[], ahead, [.raise .missing kinds rules ahead]⟩
  lossless _ _ := rfl

/-- The node around a skipped token. -/
def skipped (t : Token) : Tree := .node .error [.token t]

@[simp] theorem leaves_skipped (t : Token) : (skipped t).leaves = [t] := by simp [skipped]

/-- Takes a token of kind `k`. One stray token in front of it is skipped; otherwise the token is
missing. Errors say that one of `kinds` was expected. -/
def expectIn (k : TokenKind) (kinds : List TokenKind) : Grammar where
  run rules
    | [] => ⟨[], [], [.raise .missing kinds rules []]⟩
    | t :: ahead =>
      if t.kind = k then ⟨[.token t], ahead, []⟩
      else match ahead with
        | u :: rest =>
          if u.kind = k then
            ⟨[skipped t, .token u], rest, [.raise .extraneous kinds rules (t :: u :: rest)]⟩
          else ⟨[], t :: u :: rest, [.raise .missing kinds rules (t :: u :: rest)]⟩
        | [] => ⟨[], [t], [.raise .missing kinds rules [t]]⟩
  lossless rules ahead := by
    split
    · rfl
    · split
      · simp
      · split
        · split <;> simp
        · simp

/-- Takes a token of kind `k`, which is all that is expected. -/
def expect (k : TokenKind) : Grammar := expectIn k [k]

/-! ### Putting pieces together -/

/-- One piece, then another. -/
def andThen (g h : Grammar) : Grammar where
  run rules ahead :=
    let a := g.run rules ahead
    let b := h.run rules a.rest
    ⟨a.trees ++ b.trees, b.rest, a.errors ++ b.errors⟩
  lossless rules ahead := by
    simp only [Tree.leavesOf_append, List.append_assoc, lossless]

/-- Pieces one after another. -/
def seq : List Grammar → Grammar
  | [] => nothing
  | g :: gs => g.andThen (seq gs)

/-- A rule: its trees become the children of a node, and its errors are raised inside it. -/
def node (k : NodeKind) (g : Grammar) : Grammar where
  run rules ahead :=
    let a := g.run (rules ++ [k]) ahead
    ⟨[.node k a.trees], a.rest, a.errors⟩
  lossless rules ahead := by simp [g.lossless]

/-- The piece chosen by the kind of the token ahead. -/
def byKind (choose : TokenKind → Grammar) : Grammar where
  run rules ahead := (choose (kindAhead ahead)).run rules ahead
  lossless rules ahead := (choose (kindAhead ahead)).lossless rules ahead

/-! ### Repetition -/

/-- When the token ahead is of kind `k` the piece takes at least that token. -/
def Takes (g : Grammar) (k : TokenKind) : Prop :=
  ∀ rules t ahead, t.kind = k → (g.run rules (t :: ahead)).rest.length ≤ ahead.length

theorem Takes.node {g : Grammar} {k : TokenKind} (h : g.Takes k) (n : NodeKind) :
    (g.node n).Takes k :=
  fun rules t ahead ht => h (rules ++ [n]) t ahead ht

theorem Takes.seq {g : Grammar} {k : TokenKind} (h : g.Takes k) (gs : List Grammar) :
    (Grammar.seq (g :: gs)).Takes k :=
  fun rules t ahead ht =>
    Nat.le_trans (length_rest_le (Grammar.seq gs) rules _) (h rules t ahead ht)

theorem takes_expect (k : TokenKind) : (expect k).Takes k := by
  intro rules t ahead ht
  simp [expect, expectIn, ht]

/-- The items of a list and how to get past what is not an item. -/
structure Items where
  /-- The item that starts with a token of the kind. -/
  item? : TokenKind → Option Grammar
  /-- A token of the kind ends the list. -/
  isClosing : TokenKind → Bool
  /-- What an error says was expected. -/
  expected : List TokenKind
  /-- An item takes the token it starts with. -/
  takes {k : TokenKind} {g : Grammar} : item? k = some g → g.Takes k

namespace Items

/-- A token of the kind can neither start an item nor end the list. -/
def isStray (s : Items) (k : TokenKind) : Bool := (s.item? k).isNone && !s.isClosing k

/-- Items until a token that ends the list. A run of stray tokens is skipped with one error. -/
def run (s : Items) (rules : List NodeKind) (ahead : List Token) : Outcome :=
  match ahead with
  | [] => ⟨[], [], []⟩
  | t :: others =>
    match _ : s.item? t.kind with
    | some g =>
      let a := g.run rules (t :: others)
      let b := s.run rules a.rest
      ⟨a.trees ++ b.trees, b.rest, a.errors ++ b.errors⟩
    | none =>
      if s.isClosing t.kind then ⟨[], t :: others, []⟩
      else
        let stray := t :: others.takeWhile (s.isStray ·.kind)
        let b := s.run rules (others.dropWhile (s.isStray ·.kind))
        ⟨stray.map skipped ++ b.trees, b.rest,
          .raise .mismatched s.expected rules (t :: others) :: b.errors⟩
termination_by ahead.length
decreasing_by
  · have := s.takes ‹_› rules t others rfl
    simp only [List.length_cons]; omega
  · have := (List.dropWhile_sublist (l := others) (s.isStray ·.kind)).length_le
    simp only [List.length_cons]; omega

@[simp] theorem leavesOf_skipped (ts : List Token) : Tree.leavesOf (ts.map skipped) = ts := by
  induction ts with
  | nil => simp
  | cons t ts ih => simp [ih]

theorem lossless (s : Items) (rules : List NodeKind) (ahead : List Token) :
    Tree.leavesOf (s.run rules ahead).trees ++ (s.run rules ahead).rest = ahead := by
  fun_induction s.run rules ahead with
  | case1 => rfl
  | case2 t others g h a b ih =>
    simp only [Tree.leavesOf_append, List.append_assoc, b, ih, a, g.lossless]
  | case3 t others h hc => rfl
  | case4 t others h hc stray b ih =>
    simp only [Tree.leavesOf_append, List.append_assoc, b, ih, leavesOf_skipped, stray,
      List.cons_append, List.takeWhile_append_dropWhile]

end Items

/-- A list of items. -/
def listOf (s : Items) : Grammar where
  run := s.run
  lossless := s.lossless

end Grammar

end QuestScript
