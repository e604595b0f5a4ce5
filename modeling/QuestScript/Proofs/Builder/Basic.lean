import QuestScript.Proofs.Lossless

/-! # Building a tree step by step

A builder walks over the tokens of a document, hidden ones included, with a cursor. It opens a node and
closes it again, takes the token at the cursor into the node that was opened last, and writes errors
down. Nothing keeps it from closing a node too many, from leaving one open or from going round in a loop
without end: a step that cannot be done has no result, and neither has a loop that does not end.

What a builder makes of tokens is compared with what a piece of grammar makes of them: the outcome of a
piece, with the hidden tokens woven in, is what the builder should have built (`Builder.after`). -/

namespace QuestScript

/-- A parser at work. -/
structure Builder where
  /-- The tokens of the document from the cursor on, hidden ones included. -/
  ahead : List Token
  /-- The rules under way, the outermost first. -/
  rules : List NodeKind
  /-- The nodes that are open, the innermost first, each with the trees that come before it in the node
  around it. -/
  opened : List (NodeKind × List Tree)
  /-- The trees of the innermost open node so far. -/
  built : List Tree
  /-- The errors raised so far. -/
  errors : List SyntaxError

/-- Something that a builder does. -/
abbrev Step := Builder → Option Builder

namespace Builder

/-! ### What a builder does -/

/-- A builder at the start of a document. -/
def ofDocument (document : List Token) : Builder := ⟨document, [], [], [], []⟩

/-- The tokens ahead that the grammar sees. -/
def significant (b : Builder) : List Token := b.ahead.filter (·.isSignificant)

/-- The kind of the token at a distance among those that the grammar sees. -/
def lookAhead (b : Builder) (n : Nat) : TokenKind := kindAhead (b.significant.drop n)

/-- Puts the hidden tokens at the cursor into the open node. -/
def passHidden (b : Builder) : Builder :=
  { b with
    ahead := b.ahead.dropWhile (·.isHidden)
    built := b.built ++ (b.ahead.takeWhile (·.isHidden)).map .token }

/-- Puts the token at the cursor into the open node. -/
def push (wrap : Token → Tree) (b : Builder) : Builder :=
  match b.ahead with
  | [] => b
  | t :: ahead => { b with ahead, built := b.built ++ [wrap t] }

/-- Takes the next token that the grammar sees. -/
def take (b : Builder) : Builder := b.passHidden.push .token

/-- Skips the next token that the grammar sees: it gets a node of its own. -/
def skip (b : Builder) : Builder := b.passHidden.push Grammar.skipped

/-- Opens a node. What is hidden before it stays outside, unless it is the first node of all. -/
def start (n : NodeKind) (b : Builder) : Builder :=
  let b := if b.rules.isEmpty then b else b.passHidden
  { b with rules := b.rules ++ [n], opened := (n, b.built) :: b.opened, built := [] }

/-- Closes the node opened last, if one is open. -/
def finish : Step
  | ⟨ahead, rules, (n, before) :: opened, built, errors⟩ =>
    some ⟨ahead, rules.dropLast, opened, before ++ [.node n built], errors⟩
  | _ => none

/-- Writes down an error at the next token. -/
def raise (recovery : Recovery) (kinds : List TokenKind) (b : Builder) : Builder :=
  { b with errors := b.errors ++ [.raise recovery kinds b.rules b.significant] }

end Builder

/-- How a turn of a loop ends. -/
inductive Turn
  /-- Another turn follows. -/
  | again (b : Builder)
  /-- The loop is over. -/
  | stop (b : Builder)

namespace Turn

/-- The builder after the turn. -/
def builder : Turn → Builder
  | again b => b
  | stop b => b

end Turn

namespace Step

/-! ### Steps put together -/

/-- Steps one after another. -/
def steps : List Step → Step
  | [], b => some b
  | s :: ss, b => (s b).bind (steps ss)

/-- A step inside a node. -/
def within (n : NodeKind) (s : Step) : Step := fun b => (s (b.start n)).bind Builder.finish

/-- The step chosen by the kind of the next token. -/
def byKind (choose : TokenKind → Step) : Step := fun b => choose (b.lookAhead 0) b

/-- Takes the next token. -/
def take : Step := fun b => some b.take

/-- Takes the next token if it is of the kind. -/
def eat (k : TokenKind) : Step := fun b => some (if b.lookAhead 0 = k then b.take else b)

/-- Says that one of `kinds` is missing. -/
def missing (kinds : List TokenKind) : Step := fun b => some (b.raise .missing kinds)

/-- Takes a token of the kind. One other token before it is skipped; else it is missing. -/
def expectIn (k : TokenKind) (kinds : List TokenKind) : Step := fun b =>
  if b.lookAhead 0 = k then some b.take
  else if b.lookAhead 0 ≠ .endOfInput ∧ b.lookAhead 1 = k then
    some (b.raise .extraneous kinds).skip.take
  else some (b.raise .missing kinds)

/-- Takes a token of the kind, which is all that is expected. -/
def expect (k : TokenKind) : Step := expectIn k [k]

/-- Turns until one says that the loop is over. -/
def loop (turn : Builder → Option Turn) (b : Builder) : Option Builder := do
  match ← turn b with
  -- the call `loop turn b`, by tactics: written as a term it carries its place in the file with it
  | .again b => by apply loop; exacts [turn, b]
  | .stop b => some b
partial_fixpoint

/-- A turn of skipping: over at the end and at a token of the kinds at which parsing goes on. -/
def skipTurn (resume : List TokenKind) (b : Builder) : Option Turn :=
  if b.lookAhead 0 = .endOfInput ∨ b.lookAhead 0 ∈ resume then some (.stop b)
  else some (.again b.skip)

/-- Says that nothing fits, and skips tokens up to one where parsing goes on. -/
def recover (expected resume : List TokenKind) : Step := fun b =>
  loop (skipTurn resume) (b.raise .mismatched expected)

end Step

/-- How a loop over the items of a block goes round. -/
structure ItemLoop where
  /-- What is done with the item that starts with a token of the kind. -/
  item? : TokenKind → Option Step
  /-- The loop is over at a token of these kinds. -/
  closing : List TokenKind
  /-- What an error says was expected. -/
  expected : List TokenKind
  /-- Skipping ends at a token of these kinds. -/
  resume : List TokenKind

namespace ItemLoop

/-- A turn of the loop: an item, or skipping to a token where parsing goes on. -/
def turn (l : ItemLoop) (b : Builder) : Option Turn :=
  match l.item? (b.lookAhead 0) with
  | some item => (item b).map .again
  | none =>
    if b.lookAhead 0 ∈ l.closing then some (.stop b)
    else (Step.recover l.expected l.resume b).map .again

end ItemLoop

/-! ### What should have been built -/

namespace Builder
open QuestScript.Tree

variable {b : Builder} {o o' : Outcome} {t : Token} {rest : List Token} {n : NodeKind}

/-- The builder after it has built the trees of an outcome, with the hidden tokens before and between
them, and has written down its errors. -/
def after (b : Builder) (o : Outcome) : Builder :=
  { b with
    ahead := (weaveAll o.trees b.ahead).2
    built := b.built ++ (weaveAll o.trees b.ahead).1
    errors := b.errors ++ o.errors }

/-- Where the document starts with a token that the grammar sees, a node is woven by weaving its
children. -/
theorem weave_node {document : List Token} (hs : StartsSignificant document) (cs : List Tree) :
    weave (.node n cs) document =
      (.node n (weaveAll cs document).1, (weaveAll cs document).2) := by
  cases cs with
  | nil => simp only [weave, weaveAll]
  | cons c cs =>
    have htake : document.takeWhile (·.isHidden) = [] ∧ document.dropWhile (·.isHidden) = document := by
      cases document with
      | nil => exact ⟨rfl, rfl⟩
      | cons u document =>
        have hu : u.isHidden = false := isSignificant_iff.mp (hs u rfl)
        exact ⟨List.takeWhile_cons_of_neg (by simp [hu]), List.dropWhile_cons_of_neg (by simp [hu])⟩
    simp only [weave, weaveAll, htake.1, htake.2, List.map_nil, List.nil_append]

theorem weaveAll_append (ss ts : List Tree) (document : List Token) :
    weaveAll (ss ++ ts) document =
      ((weaveAll ss document).1 ++ (weaveAll ts (weaveAll ss document).2).1,
        (weaveAll ts (weaveAll ss document).2).2) := by
  induction ss generalizing document with
  | nil => simp only [weaveAll, List.nil_append]
  | cons s ss ih => simp only [List.cons_append, weaveAll, ih, List.append_assoc]

theorem after_after (rest : List Token) : (b.after o).after o' =
    b.after ⟨o.trees ++ o'.trees, rest, o.errors ++ o'.errors⟩ := by
  simp only [after, weaveAll_append, List.append_assoc]

theorem after_nothing (rest : List Token) : b.after ⟨[], rest, []⟩ = b := by
  simp only [after, weaveAll, List.append_nil]

theorem after_errors (rest : List Token) (errors : List SyntaxError) :
    b.after ⟨[], rest, errors⟩ = { b with errors := b.errors ++ errors } := by
  simp only [after, weaveAll, List.append_nil]

theorem significant_after (h : leavesOf o.trees ++ o.rest = b.significant) :
    (b.after o).significant = o.rest :=
  (leavesOf_weaveAll o.trees h.symm).2

theorem significant_passHidden : b.passHidden.significant = b.significant :=
  filter_dropWhile_isHidden b.ahead

theorem exists_ahead_passHidden (h : b.significant = t :: rest) :
    ∃ more, b.passHidden.ahead = t :: more ∧ more.filter (·.isSignificant) = rest := by
  rw [← significant_passHidden] at h
  exact filter_eq_cons (startsSignificant_dropWhile b.ahead) h

/-- The next token is put into the open node behind the hidden ones, as it is or in a node. -/
theorem push_passHidden {wrap : Token → Tree} (h : b.significant = t :: rest)
    (hwrap : ∀ more, weave (wrap t) (t :: more) = (wrap t, more)) :
    b.passHidden.push wrap = b.after ⟨[wrap t], rest, []⟩ := by
  obtain ⟨more, hahead, -⟩ := exists_ahead_passHidden h
  have hdrop : b.ahead.dropWhile (·.isHidden) = t :: more := hahead
  have hwoven : weaveAll [wrap t] b.ahead =
      ((b.ahead.takeWhile (·.isHidden)).map .token ++ [wrap t], more) := by
    simp only [weaveAll, hdrop, hwrap]
  simp only [push, hahead, after, hwoven]
  simp only [passHidden, List.append_assoc, List.append_nil]

theorem take_eq (h : b.significant = t :: rest) : b.take = b.after ⟨[.token t], rest, []⟩ :=
  push_passHidden h fun more => by simp only [weave, List.drop_one, List.tail_cons]

theorem skip_eq (h : b.significant = t :: rest) :
    b.skip = b.after ⟨[Grammar.skipped t], rest, []⟩ :=
  push_passHidden h fun more => by
    simp only [Grammar.skipped, weave, weaveAll, List.drop_one, List.tail_cons]

/-- **The builder is at work**: a rule is under way, and what is ahead belongs to the document. -/
structure Ready (b : Builder) : Prop where
  inRule : b.rules ≠ []
  inDocument : ∀ t ∈ b.ahead, t.isEnd = false

namespace Ready

theorem of_sublist {b' : Builder} (hb : b.Ready) (hrules : b'.rules ≠ [])
    (hahead : b'.ahead.Sublist b.ahead) : b'.Ready :=
  ⟨hrules, fun t ht => hb.inDocument t (hahead.subset ht)⟩

theorem after (hb : b.Ready) (h : leavesOf o.trees ++ o.rest = b.significant) : (b.after o).Ready := by
  refine hb.of_sublist hb.inRule ?_
  have hahead := (leavesOf_weaveAll o.trees h.symm).1
  change (weaveAll o.trees b.ahead).2.Sublist b.ahead
  conv_rhs => rw [← hahead]
  exact List.sublist_append_right _ _

theorem kind_ne (hb : b.Ready) (ht : t ∈ b.significant) : t.kind ≠ .endOfInput := by
  have hend := hb.inDocument t (List.mem_filter.mp ht).1
  simpa [Token.isEnd] using hend

end Ready

/-- **What is done inside a node becomes its children**, and the node is closed again. -/
theorem finish_start (hb : b.Ready) :
    finish ((b.start n).after o) = some (b.after ⟨[.node n o.trees], o.rest, o.errors⟩) := by
  have hempty : b.rules.isEmpty = false := by simpa using hb.inRule
  have hwoven := weave_node (n := n) (startsSignificant_dropWhile b.ahead) o.trees
  simp only [start, hempty, Bool.false_eq_true, if_false, after, finish, passHidden, weaveAll, hwoven,
    List.dropLast_concat, List.nil_append, List.append_assoc]

end Builder

end QuestScript
