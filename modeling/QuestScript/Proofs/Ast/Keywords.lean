import Mathlib.Algebra.GroupWithZero.Nat
import Mathlib.Tactic.SplitIfs
import QuestScript.Proofs.Ast.Roles

/-! # Keywords of a quest

Blocks and their parts start with a keyword, so how often a block or a part of a block is repeated
can be told from the keywords of a quest alone (`repeats`, `Quest.keywords_leaves`). -/

namespace QuestScript

/-- The keyword that the kind is. -/
def TokenKind.keyword? : TokenKind → Option Keyword
  | keyword k => some k
  | _ => none

/-! ### Repeated keywords -/

/-- A block starts with the keyword. -/
def Keyword.opensBlock : Keyword → Bool
  | main | state => true
  | _ => false

/-- An attribute starts with the keyword. -/
def Keyword.opensAttribute : Keyword → Bool
  | questName | version | hidden | hiddenEnd | disabled => true
  | _ => false

/-- Number of keywords that satisfy `p` and occur before in their block. -/
def repeats (p : Keyword → Bool) : (seen : List Keyword) → List Keyword → Nat
  | _, [] => 0
  | seen, k :: ks =>
    if k.opensBlock then repeats p [] ks
    else if p k && seen.contains k then repeats p seen ks + 1
    else repeats p (k :: seen) ks

section Repeats
variable {p : Keyword → Bool} {seen ks ls ms : List Keyword} {j k : Keyword}

theorem repeats_append (hj : j.opensBlock = true) :
    repeats p seen (ks ++ j :: ls) = repeats p seen ks + repeats p [] ls := by
  induction ks generalizing seen with
  | nil => simp [repeats, hj]
  | cons k ks ih =>
    rw [List.cons_append, repeats, repeats, ih, ih, ih]
    split_ifs <;> omega

/-- **One repeated keyword less.** -/
theorem repeats_remove (hp : p k = true) (hk : k.opensBlock = false)
    (hls : ∀ i ∈ ls, i.opensBlock = false) (h : k ∈ seen ∨ k ∈ ls) :
    repeats p seen (ls ++ k :: ms) = repeats p seen (ls ++ ms) + 1 := by
  induction ls generalizing seen with
  | nil =>
    have hseen : k ∈ seen := h.resolve_right (by simp)
    simp [repeats, hk, hp, hseen]
  | cons i ls ih =>
    rw [List.forall_mem_cons] at hls
    have hi : ¬ i.opensBlock = true := by simp [hls.1]
    rw [List.cons_append, List.cons_append, repeats, repeats, if_neg hi, if_neg hi]
    by_cases hrepeat : (p i && seen.contains i) = true
    · have hseen : k ∈ seen ∨ k ∈ ls := by
        rcases h with h | h
        · exact .inl h
        rcases List.mem_cons.mp h with rfl | h
        · rw [Bool.and_eq_true, List.contains_iff_mem] at hrepeat
          exact .inl hrepeat.2
        · exact .inr h
      rw [if_pos hrepeat, if_pos hrepeat, ih hls.2 hseen]
    · have hseen : k ∈ i :: seen ∨ k ∈ ls := by
        rcases h with h | h
        · exact .inl (by simp [h])
        rcases List.mem_cons.mp h with rfl | h
        · exact .inl (by simp)
        · exact .inr h
      rw [if_neg hrepeat, if_neg hrepeat, ih hls.2 hseen]

theorem repeats_lt (hj : j.opensBlock = true) (hp : p k = true) (hk : k.opensBlock = false)
    (hls : ∀ i ∈ ls, i.opensBlock = false) (h : k ∈ ls) :
    repeats p seen ((ks ++ j :: ls) ++ ms) < repeats p seen ((ks ++ j :: ls) ++ ([k] ++ ms)) := by
  rw [List.append_assoc, List.append_assoc, List.cons_append, List.cons_append, repeats_append hj,
    repeats_append hj, List.singleton_append, repeats_remove hp hk hls (.inr h)]
  omega

theorem repeats_eq_zero (h : ∀ i ∈ ks, i.opensBlock = false ∧ p i = false) :
    repeats p seen ks = 0 := by
  induction ks generalizing seen with
  | nil => rfl
  | cons i ks ih =>
    rw [List.forall_mem_cons] at h
    have hi : ¬ i.opensBlock = true := by simp [h.1.1]
    rw [repeats, if_neg hi, h.1.2, Bool.false_and, if_neg (by simp), ih h.2]

end Repeats

namespace Ast
variable {α : TokenKind → Type} {flavor : Flavor}

/-! ### The keywords of each construct -/

/-- The keywords among leaves. -/
def keywords (ls : List (Leaf α)) : List Keyword := ls.filterMap (·.kind.keyword?)

theorem keywords_append (ls ms : List (Leaf α)) : keywords (ls ++ ms) = keywords ls ++ keywords ms :=
  List.filterMap_append

@[simp] theorem keywords_cons_keyword {k : Keyword} (word : α (.keyword k)) (ls : List (Leaf α)) :
    keywords (.plain word :: ls) = k :: keywords ls := rfl

@[simp] theorem keywords_cons_refers (kind : SymbolKind) (word : α .identifier)
    (ls : List (Leaf α)) : keywords (.refers kind word :: ls) = keywords ls := rfl

theorem keywords_of_isPlain {ls : List (Leaf α)} (h : ∀ l ∈ ls, l.IsPlain) : keywords ls = [] := by
  refine List.filterMap_eq_nil_iff.mpr fun l hl => ?_
  have hword := (h l hl).2
  cases hk : l.kind with
  | keyword k =>
    rw [hk] at hword
    cases hword
  | _ => rfl

theorem keywords_flatMap {β : Type} (leaves : β → List (Leaf α)) (xs : List β) :
    keywords (xs.flatMap leaves) = xs.flatMap fun x => keywords (leaves x) := by
  induction xs with
  | nil => rfl
  | cons x xs ih => rw [List.flatMap_cons, keywords_append, ih, List.flatMap_cons]

theorem Attribute.keywords_leaves (x : Attribute α) : keywords x.leaves = [x.keyword] := by
  have hclose : ∀ close : Option (α .semicolon), keywords (Leaf.close close) = [] := fun close =>
    keywords_of_isPlain (isPlain_close close)
  cases x with
  | questName keyword value close => exact congrArg (Keyword.questName :: ·) (hclose close)
  | version keyword value close => exact congrArg (Keyword.version :: ·) (hclose close)
  | flag f keyword close => exact congrArg (f.keyword :: ·) (hclose close)

theorem Attribute.keywords_flatMap (xs : List (Attribute α)) :
    keywords (xs.flatMap Attribute.leaves) = xs.map Attribute.keyword := by
  rw [Ast.keywords_flatMap, List.map_eq_flatMap]
  simp only [Attribute.keywords_leaves]

theorem Attribute.opensAttribute_keyword (x : Attribute α) : x.keyword.opensAttribute = true := by
  cases x with
  | flag f keyword close => cases f <;> rfl
  | _ => rfl

theorem Keyword.opensBlock_of_opensAttribute {k : Keyword} (h : k.opensAttribute = true) :
    k.opensBlock = false := by
  cases k <;> first | rfl | cases h

theorem Expression.keywords_leaves (x : Expression α) (kind : SymbolKind) :
    keywords (x.leaves kind) = if x.isGoto then [.goto] else [] := by
  cases x with
  | invocation x =>
    rw [leaves, Invocation.leaves, keywords_cons_refers]
    exact keywords_of_isPlain x.arguments.isPlain_leaves
  | goto keyword target => rfl
  | literal x => exact keywords_of_isPlain (List.forall_mem_singleton.mpr x.isPlain_leaf)

/-- The keywords of a statement. -/
def Statement.keywords : Statement α flavor → List Keyword
  | description _ _ _ => [.description]
  | rule _ _ _ _ _ => [.rule, .goto]
  | action _ _ _ => [.action]
  | conditional c _ condition effect _ =>
    c.keyword :: ((if condition.isGoto then [.goto] else []) ++ if effect.isGoto then [.goto] else [])
  | unconditional c _ effect _ => c.keyword :: if effect.isGoto then [.goto] else []

theorem Statement.keywords_leaves (x : Statement α flavor) : Ast.keywords x.leaves = x.keywords := by
  have hclose : ∀ close : Option (α .semicolon), Ast.keywords (Leaf.close close) = [] := fun close =>
    keywords_of_isPlain (isPlain_close close)
  have harguments : ∀ y : ArgumentList α, Ast.keywords y.leaves = [] := fun y =>
    keywords_of_isPlain y.isPlain_leaves
  cases x with
  | description keyword text close => exact congrArg (Keyword.description :: ·) (hclose close)
  | rule keyword condition goto target close =>
    simp [leaves, keywords, Invocation.leaves, keywords_append, harguments, hclose]
  | action keyword effect close =>
    simp [leaves, keywords, Invocation.leaves, keywords_append, harguments, hclose]
  | conditional c keyword condition effect close =>
    simp [leaves, keywords, keywords_append, Expression.keywords_leaves, hclose]
  | unconditional c keyword effect close =>
    simp [leaves, keywords, keywords_append, Expression.keywords_leaves, hclose]

theorem Statement.keywords_flatMap (xs : List (Statement α flavor)) :
    Ast.keywords (xs.flatMap Statement.leaves) = xs.flatMap Statement.keywords := by
  rw [Ast.keywords_flatMap]
  simp only [Statement.keywords_leaves]

theorem Statement.opens_keywords (x : Statement α flavor) :
    ∀ k ∈ x.keywords, k.opensBlock = false ∧ k.opensAttribute = false := by
  have hgoto : ∀ y : Expression α, ∀ k ∈ (if y.isGoto then [Keyword.goto] else []),
      k.opensBlock = false ∧ k.opensAttribute = false := by
    intro y
    cases y.isGoto <;> simp [Keyword.opensBlock, Keyword.opensAttribute]
  cases x with
  | conditional c keyword condition effect close =>
    refine List.forall_mem_cons.mpr ⟨?_, List.forall_mem_append.mpr ⟨hgoto condition, hgoto effect⟩⟩
    cases c <;> exact ⟨rfl, rfl⟩
  | unconditional c keyword effect close =>
    refine List.forall_mem_cons.mpr ⟨?_, hgoto effect⟩
    cases c <;> exact ⟨rfl, rfl⟩
  | _ => simp [keywords, Keyword.opensBlock, Keyword.opensAttribute]

theorem Statement.count_description (x : Statement α flavor) :
    x.keywords.count .description = if x.isDescription then 1 else 0 := by
  have hgoto : ∀ y : Expression α,
      (if y.isGoto then [Keyword.goto] else []).count .description = 0 := by
    intro y
    cases y.isGoto <;> rfl
  cases x with
  | conditional c keyword condition effect close =>
    rw [keywords, List.count_cons, List.count_append, hgoto, hgoto]
    cases c <;> rfl
  | unconditional c keyword effect close =>
    rw [keywords, List.count_cons, hgoto]
    cases c <;> rfl
  | _ => rfl

/-- The keyword with which a block starts. -/
def Block.opener : Block α flavor → Keyword
  | main _ => .main
  | state _ => .state

/-- The keywords inside a block. -/
def Block.innerKeywords : Block α flavor → List Keyword
  | main x => x.attributes.map Attribute.keyword
  | state x => x.statements.flatMap Statement.keywords

theorem Block.keywords_leaves (x : Block α flavor) :
    keywords x.leaves = x.opener :: x.innerKeywords := by
  cases x with
  | main x =>
    show Keyword.main :: keywords (x.attributes.flatMap Attribute.leaves ++ [.plain x.closing]) = _
    rw [keywords_append, Attribute.keywords_flatMap]
    exact congrArg (Keyword.main :: ·) (List.append_nil _)
  | state x =>
    show Keyword.state :: keywords (x.statements.flatMap Statement.leaves ++ [.plain x.closing]) = _
    rw [keywords_append, Statement.keywords_flatMap]
    exact congrArg (Keyword.state :: ·) (List.append_nil _)

theorem Block.opensBlock_opener (x : Block α flavor) : x.opener.opensBlock = true := by
  cases x <;> rfl

theorem Block.opensBlock_innerKeywords (x : Block α flavor) :
    ∀ k ∈ x.innerKeywords, k.opensBlock = false := by
  cases x with
  | main x =>
    intro k hk
    obtain ⟨y, -, rfl⟩ := List.mem_map.mp hk
    exact Keyword.opensBlock_of_opensAttribute y.opensAttribute_keyword
  | state x =>
    intro k hk
    obtain ⟨y, -, hk⟩ := List.mem_flatMap.mp hk
    exact (y.opens_keywords k hk).1

/-- **The keywords of a quest**, block by block. -/
theorem Quest.keywords_leaves (q : Quest α flavor) :
    keywords q.leaves = q.blocks.flatMap fun x => x.opener :: x.innerKeywords := by
  rw [leaves, keywords_flatMap]
  simp only [Block.keywords_leaves]

/-! ### Numbers of repeated keywords -/

theorem Quest.count_main (q : Quest α flavor) : (keywords q.leaves).count .main = q.mains.length := by
  rw [q.keywords_leaves, mains]
  induction q.blocks with
  | nil => rfl
  | cons x xs ih =>
    have hinner : x.innerKeywords.count .main = 0 := by
      rw [List.count_eq_zero]
      intro hmem
      have := x.opensBlock_innerKeywords _ hmem
      cases this
    rw [List.flatMap_cons, List.count_append, ih, List.count_cons, hinner]
    cases x with
    | main x =>
      show 0 + 1 + (xs.filterMap Block.main?).length = (x :: xs.filterMap Block.main?).length
      rw [List.length_cons]
      omega
    | state x => exact Nat.zero_add _

/-- **Repeated keywords are counted block by block.** -/
theorem Quest.repeats_keywords (p : Keyword → Bool) (q : Quest α flavor) :
    repeats p [] (keywords q.leaves) = (q.blocks.map fun x => repeats p [] x.innerKeywords).sum := by
  suffices h : ∀ (xs : List (Block α flavor)) (seen ks : List Keyword),
      repeats p seen (ks ++ xs.flatMap fun x => x.opener :: x.innerKeywords) =
        repeats p seen ks + (xs.map fun x => repeats p [] x.innerKeywords).sum by
    have hblocks := h q.blocks [] []
    rw [List.nil_append, repeats, Nat.zero_add] at hblocks
    rw [q.keywords_leaves, hblocks]
  intro xs
  induction xs with
  | nil => simp
  | cons x xs ih =>
    intro seen ks
    rw [List.flatMap_cons, List.cons_append, repeats_append x.opensBlock_opener, ih, List.map_cons,
      List.sum_cons]

theorem repeats_description {seen ks : List Keyword} (h : ∀ k ∈ ks, k.opensBlock = false) :
    repeats (· == .description) seen ks =
      ks.count .description - if .description ∈ seen then 0 else 1 := by
  induction ks generalizing seen with
  | nil => simp [repeats]
  | cons k ks ih =>
    rw [List.forall_mem_cons] at h
    have hk : ¬ k.opensBlock = true := by simp [h.1]
    rw [repeats, if_neg hk, ih h.2, ih h.2, List.count_cons]
    by_cases hdescription : k = .description
    · by_cases hseen : Keyword.description ∈ seen
      · simp [hdescription, hseen]
      · simp [hdescription, hseen]
    · simp [hdescription, Ne.symm hdescription]

end Ast

end QuestScript
