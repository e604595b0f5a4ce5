import QuestScript.Proofs.Ast.Roles
import QuestScript.Proofs.Ast.Tree
import QuestScript.Proofs.Check.Walk

/-! # What is checked in a quest

The walk over the tree of a quest in terms of the quest: the *sites* of a quest, in the order in
which the walk comes to them, with what is found at each. Words and references are the leaves of the
quest (`Quest.leaves_sites`). -/

namespace QuestScript.Ast

/-- Something that the walk looks at. -/
inductive Site (flavor : Flavor)
  /-- A word that does not refer to anything. -/
  | word (l : Leaf Word)
  /-- A name that refers to a symbol of the kind, its arguments if it takes any, and where the block
  around it ends. -/
  | reference (kind : SymbolKind) (name : Word .identifier) (arguments : Option (ArgumentList Word))
    (stop : Position)
  /-- A condition that leads to a state. -/
  | gotoCondition (x : Expression Word)
  /-- A main block, where one may have been seen before. -/
  | main (seen : Bool) (x : MainBlock Word)
  | state (x : StateBlock Word flavor)

variable {flavor : Flavor}

/-! ### Sites in order -/

/-- The sites of words. -/
def wordSites (ls : List (Leaf Word)) : List (Site flavor) := ls.map .word

namespace Expression

/-- The sites of an expression that invokes symbols of the kind. -/
def sites (stop : Position) (kind : SymbolKind) (isCondition : Bool) :
    Expression Word → List (Site flavor)
  | invocation x =>
    .reference kind x.callee (some x.arguments) stop :: wordSites x.arguments.leaves
  | goto keyword target =>
    (if isCondition then [.gotoCondition (goto keyword target)] else []) ++
      [.word (.plain keyword), .reference .state target none stop]
  | literal x => wordSites [x.leaf]

end Expression

namespace Statement

/-- The sites of a statement in a block that ends at `stop`. -/
def sites (stop : Position) : Statement Word flavor → List (Site flavor)
  | description keyword text close =>
    wordSites ([.plain keyword, .plain text] ++ Leaf.close close)
  | rule keyword condition goto target close =>
    .word (.plain keyword) :: .reference .rule condition.callee (some condition.arguments) stop ::
      (wordSites condition.arguments.leaves ++
        (.word (.plain goto) :: .reference .state target none stop :: wordSites (Leaf.close close)))
  | action keyword effect close =>
    .word (.plain keyword) :: .reference .action effect.callee (some effect.arguments) stop ::
      (wordSites effect.arguments.leaves ++ wordSites (Leaf.close close))
  | conditional _ keyword condition effect close =>
    .word (.plain keyword) :: (condition.sites stop .rule true ++
      (effect.sites stop .action false ++ wordSites (Leaf.close close)))
  | unconditional _ keyword effect close =>
    .word (.plain keyword) :: (effect.sites stop .action false ++ wordSites (Leaf.close close))

end Statement

namespace StateBlock

/-- Where the block ends. -/
def stop (x : StateBlock Word flavor) : Position := x.closing.1.span.stop

/-- The sites of a state. -/
def sites (x : StateBlock Word flavor) : List (Site flavor) :=
  .state x :: (wordSites [.plain x.keyword, .declares x.name, .plain x.opening] ++
    (x.statements.flatMap (Statement.sites x.stop) ++ wordSites [.plain x.closing]))

end StateBlock

namespace Block

/-- The sites of a block, where a main block may have been seen before. -/
def sites (seen : Bool) : Block Word flavor → List (Site flavor)
  | main x => .main seen x :: wordSites x.leaves
  | state x => x.sites

/-- A main block has been seen after the block. -/
def seenAfter (seen : Bool) (x : Block Word flavor) : Bool := seen || x.main?.isSome

end Block

/-- The sites of blocks, where a main block may have been seen before. -/
def sitesFrom : (seen : Bool) → List (Block Word flavor) → List (Site flavor)
  | _, [] => []
  | seen, x :: xs => x.sites seen ++ sitesFrom (x.seenAfter seen) xs

/-- The sites of a quest. -/
def Quest.sites (q : Quest Word flavor) : List (Site flavor) := sitesFrom false q.blocks

/-! ### What the sites are at -/

namespace Site

/-- The leaf at which a site is. -/
def leaf? : Site flavor → Option (Leaf Word)
  | word l => some (if l.role.isReference then .plain l.word else l)
  | reference kind name _ _ => some (.refers kind name)
  | gotoCondition _ | main _ _ | state _ => none

/-- The invocation at which a site is. -/
def invocation? : Site flavor → Option (SymbolKind × Invocation Word)
  | reference kind name arguments _ => arguments.map fun x => (kind, ⟨name, x⟩)
  | word _ | gotoCondition _ | main _ _ | state _ => none

/-- The condition that leads to a state at which a site is. -/
def gotoCondition? : Site flavor → Option (Expression Word)
  | gotoCondition x => some x
  | word _ | reference _ _ _ _ | main _ _ | state _ => none

/-- The main block at which a site is, and whether one has been seen before. -/
def main? : Site flavor → Option (Bool × MainBlock Word)
  | main seen x => some (seen, x)
  | word _ | reference _ _ _ _ | gotoCondition _ | state _ => none

/-- The state at which a site is. -/
def state? : Site flavor → Option (StateBlock Word flavor)
  | state x => some x
  | word _ | reference _ _ _ _ | gotoCondition _ | main _ _ => none

/-- The site is not at a block. -/
def isInBlock : Site flavor → Bool
  | main _ _ | state _ => false
  | word _ | reference _ _ _ _ | gotoCondition _ => true

end Site

/-- Main blocks with whether one has been seen before. -/
def marked : (seen : Bool) → List (MainBlock Word) → List (Bool × MainBlock Word)
  | _, [] => []
  | seen, x :: xs => (seen, x) :: marked true xs

/-! ### Leaves among the sites -/

section Leaves

theorem isReference_of_plain {ls : List (Leaf Word)} (h : ∀ l ∈ ls, l.role = .plain) :
    ∀ l ∈ ls, l.role.isReference = false := by
  intro l hl
  rw [h l hl]
  rfl

theorem isReference_close (close : Option (Word .semicolon)) :
    ∀ l ∈ Leaf.close close, l.role.isReference = false :=
  isReference_of_plain fun l hl => (isPlain_close close l hl).1

theorem isReference_arguments (x : ArgumentList Word) :
    ∀ l ∈ x.leaves, l.role.isReference = false :=
  isReference_of_plain fun l hl => (x.isPlain_leaves l hl).1

theorem isReference_mainBlock (x : MainBlock Word) : ∀ l ∈ x.leaves, l.role.isReference = false :=
  isReference_of_plain x.role_leaves

@[simp] theorem leaf?_word {l : Leaf Word} (h : l.role.isReference = false) :
    (Site.word l : Site flavor).leaf? = some l := by
  rw [Site.leaf?, h]
  rfl

theorem leaves_wordSites {ls : List (Leaf Word)} (h : ∀ l ∈ ls, l.role.isReference = false) :
    (wordSites ls : List (Site flavor)).filterMap Site.leaf? = ls := by
  induction ls with
  | nil => rfl
  | cons l ls ih =>
    rw [List.forall_mem_cons] at h
    rw [wordSites, List.map_cons, List.filterMap_cons_some (leaf?_word h.1)]
    exact congrArg (l :: ·) (ih h.2)

theorem Expression.leaves_sites (stop : Position) (kind : SymbolKind) (isCondition : Bool)
    (x : Expression Word) :
    (x.sites stop kind isCondition : List (Site flavor)).filterMap Site.leaf? = x.leaves kind := by
  cases x with
  | invocation x =>
    simp [sites, leaves, Invocation.leaves, Site.leaf?, leaves_wordSites (isReference_arguments _)]
  | goto keyword target => cases isCondition <;> rfl
  | literal x => cases x <;> rfl

theorem Statement.leaves_sites (stop : Position) (x : Statement Word flavor) :
    (x.sites stop).filterMap Site.leaf? = x.leaves := by
  cases x with
  | description keyword text close =>
    rw [sites, leaves]
    refine leaves_wordSites (List.forall_mem_append.mpr ⟨?_, isReference_close close⟩)
    simp [Leaf.plain, Role.isReference]
  | rule keyword condition goto target close =>
    simp [sites, leaves, Invocation.leaves, Site.leaf?, leaves_wordSites (isReference_close close),
      leaves_wordSites (isReference_arguments _), Leaf.plain, Role.isReference]
  | action keyword effect close =>
    simp [sites, leaves, Invocation.leaves, Site.leaf?, leaves_wordSites (isReference_close close),
      leaves_wordSites (isReference_arguments _), Leaf.plain, Role.isReference]
  | conditional c keyword condition effect close =>
    simp [sites, leaves, Expression.leaves_sites, Site.leaf?, Leaf.plain, Role.isReference,
      leaves_wordSites (isReference_close close)]
  | unconditional c keyword effect close =>
    simp [sites, leaves, Expression.leaves_sites, Site.leaf?, Leaf.plain, Role.isReference,
      leaves_wordSites (isReference_close close)]

theorem filterMap_flatMap {β γ δ : Type} {f : γ → Option δ} {g : β → List γ} {h : β → List δ}
    (hgh : ∀ x, (g x).filterMap f = h x) (xs : List β) :
    (xs.flatMap g).filterMap f = xs.flatMap h := by
  induction xs with
  | nil => rfl
  | cons x xs ih => rw [List.flatMap_cons, List.filterMap_append, hgh, ih, List.flatMap_cons]

theorem StateBlock.leaves_sites (x : StateBlock Word flavor) :
    x.sites.filterMap Site.leaf? = x.leaves := by
  simp [sites, leaves, wordSites, filterMap_flatMap (Statement.leaves_sites x.stop), Site.leaf?,
    List.filterMap_cons, Leaf.plain, Leaf.declares, Role.isReference]

theorem Block.leaves_sites (seen : Bool) (x : Block Word flavor) :
    (x.sites seen).filterMap Site.leaf? = x.leaves := by
  cases x with
  | main x =>
    rw [sites, List.filterMap_cons_none rfl]
    exact leaves_wordSites (isReference_mainBlock x)
  | state x => exact x.leaves_sites

theorem leaves_sitesFrom (seen : Bool) (xs : List (Block Word flavor)) :
    (sitesFrom seen xs).filterMap Site.leaf? = xs.flatMap Block.leaves := by
  induction xs generalizing seen with
  | nil => rfl
  | cons x xs ih =>
    rw [sitesFrom, List.filterMap_append, ih, Block.leaves_sites, List.flatMap_cons]

/-- **The sites at words and references are the leaves of the quest.** -/
theorem Quest.leaves_sites (q : Quest Word flavor) : q.sites.filterMap Site.leaf? = q.leaves :=
  leaves_sitesFrom false q.blocks

end Leaves

/-! ### Sites below statements -/

section Below
variable {β : Type} {f : Site flavor → Option β}

theorem filterMap_wordSites (hword : ∀ l, f (.word l) = none) (ls : List (Leaf Word)) :
    (wordSites ls).filterMap f = [] := by
  rw [wordSites, List.filterMap_map]
  exact List.filterMap_eq_nil_iff.mpr fun l _ => hword l

theorem StateBlock.filterMap_sites (hword : ∀ l, f (.word l) = none)
    (hstate : ∀ x, f (.state x) = none) (x : StateBlock Word flavor) :
    x.sites.filterMap f = x.statements.flatMap fun y => (y.sites x.stop).filterMap f := by
  rw [sites, List.filterMap_cons_none (hstate x), List.filterMap_append, List.filterMap_append,
    filterMap_wordSites hword, filterMap_wordSites hword, List.append_nil, List.nil_append]
  exact filterMap_flatMap (fun _ => rfl) x.statements

/-- What is seen neither at words nor at blocks is seen below statements. -/
theorem Quest.filterMap_sites (hword : ∀ l, f (.word l) = none)
    (hstate : ∀ x, f (.state x) = none) (hmain : ∀ seen x, f (.main seen x) = none)
    (q : Quest Word flavor) : q.sites.filterMap f =
      q.states.flatMap fun x => x.statements.flatMap fun y => (y.sites x.stop).filterMap f := by
  rw [sites, states]
  generalize false = seen
  induction q.blocks generalizing seen with
  | nil => rfl
  | cons x xs ih =>
    rw [sitesFrom, List.filterMap_append, ih]
    cases x with
    | main x =>
      rw [Block.sites, List.filterMap_cons_none (hmain seen x), filterMap_wordSites hword]
      rfl
    | state x =>
      rw [Block.sites, x.filterMap_sites hword hstate]
      rfl

theorem Expression.invocation_sites (stop : Position) (kind : SymbolKind) (isCondition : Bool)
    (x : Expression Word) :
    (x.sites stop kind isCondition : List (Site flavor)).filterMap Site.invocation? =
      (x.invocation?.map (kind, ·)).toList := by
  cases x with
  | invocation x =>
    rw [sites, List.filterMap_cons, filterMap_wordSites fun _ => rfl]
    rfl
  | goto keyword target => cases isCondition <;> rfl
  | literal x => rfl

theorem Statement.invocation_sites (stop : Position) (x : Statement Word flavor) :
    (x.sites stop).filterMap Site.invocation? = x.invocations := by
  have hwords : ∀ ls, (wordSites ls : List (Site flavor)).filterMap Site.invocation? = [] :=
    filterMap_wordSites fun _ => rfl
  cases x with
  | description keyword text close => exact hwords _
  | rule keyword condition goto target close =>
    simp [sites, invocations, hwords, Site.invocation?, List.filterMap_cons]
  | action keyword effect close =>
    simp [sites, invocations, hwords, Site.invocation?, List.filterMap_cons]
  | conditional c keyword condition effect close =>
    simp [sites, invocations, hwords, Site.invocation?, List.filterMap_cons,
      Expression.invocation_sites]
  | unconditional c keyword effect close =>
    simp [sites, invocations, hwords, Site.invocation?, List.filterMap_cons,
      Expression.invocation_sites]

/-- **The sites of invocations** are the invocations of the statements. -/
theorem Quest.invocation_sites (q : Quest Word flavor) :
    q.sites.filterMap Site.invocation? = q.statements.flatMap Statement.invocations := by
  rw [q.filterMap_sites (fun _ => rfl) (fun _ => rfl) fun _ _ => rfl, statements, List.flatMap_assoc]
  simp only [Statement.invocation_sites]

theorem Expression.gotoCondition_sites (flavor : Flavor) (stop : Position) (kind : SymbolKind)
    (isCondition : Bool) (x : Expression Word) :
    (x.sites stop kind isCondition : List (Site flavor)).filterMap Site.gotoCondition? = [] ↔
      (isCondition && x.isGoto) = false := by
  cases x with
  | invocation x =>
    rw [sites, List.filterMap_cons_none rfl, filterMap_wordSites fun _ => rfl]
    cases isCondition <;> simp [isGoto]
  | goto keyword target => cases isCondition <;> simp [sites, Site.gotoCondition?, isGoto]
  | literal x =>
    rw [sites, filterMap_wordSites fun _ => rfl]
    cases isCondition <;> simp [isGoto]

theorem Statement.gotoCondition_sites (stop : Position) (x : Statement Word flavor) :
    (x.sites stop).filterMap Site.gotoCondition? = [] ↔ x.hasGotoCondition = false := by
  have hwords : ∀ ls, (wordSites ls : List (Site flavor)).filterMap Site.gotoCondition? = [] :=
    filterMap_wordSites fun _ => rfl
  cases x with
  | description keyword text close => simp [sites, hwords, hasGotoCondition]
  | rule keyword condition goto target close =>
    simp [sites, hwords, hasGotoCondition, Site.gotoCondition?, List.filterMap_cons]
  | action keyword effect close =>
    simp [sites, hwords, hasGotoCondition, Site.gotoCondition?, List.filterMap_cons]
  | conditional c keyword condition effect close =>
    have hcondition := condition.gotoCondition_sites .eoserv stop .rule true
    have heffect := effect.gotoCondition_sites .eoserv stop .action false
    rw [Bool.true_and] at hcondition
    rw [sites, List.filterMap_cons_none rfl, List.filterMap_append, List.filterMap_append,
      List.append_eq_nil_iff, List.append_eq_nil_iff, hcondition, heffect]
    simp [hwords, hasGotoCondition]
  | unconditional c keyword effect close =>
    have heffect := effect.gotoCondition_sites .eoserv stop .action false
    rw [sites, List.filterMap_cons_none rfl, List.filterMap_append, List.append_eq_nil_iff, heffect]
    simp [hwords, hasGotoCondition]

/-- **The sites of conditions that lead to a state** are those that the statements have. -/
theorem Quest.gotoCondition_sites (q : Quest Word flavor) :
    q.sites.filterMap Site.gotoCondition? = [] ↔
      ∀ x ∈ q.statements, x.hasGotoCondition = false := by
  rw [q.filterMap_sites (fun _ => rfl) (fun _ => rfl) fun _ _ => rfl]
  simp only [List.flatMap_eq_nil_iff, Statement.gotoCondition_sites, statements, List.mem_flatMap]
  constructor
  · rintro h x ⟨y, hy, hx⟩
    exact h y hy x hx
  · intro h y hy x hx
    exact h x ⟨y, hy, hx⟩

end Below

/-! ### Sites at blocks -/

section AtBlocks

theorem isInBlock_wordSites (ls : List (Leaf Word)) :
    ∀ s ∈ (wordSites ls : List (Site flavor)), s.isInBlock = true := by
  intro s hs
  obtain ⟨l, -, rfl⟩ := List.mem_map.mp hs
  rfl

theorem Expression.isInBlock_sites (stop : Position) (kind : SymbolKind) (isCondition : Bool)
    (x : Expression Word) :
    ∀ s ∈ (x.sites stop kind isCondition : List (Site flavor)), s.isInBlock = true := by
  cases x with
  | invocation x => exact List.forall_mem_cons.mpr ⟨rfl, isInBlock_wordSites _⟩
  | goto keyword target => cases isCondition <;> simp [sites, Site.isInBlock]
  | literal x => exact isInBlock_wordSites _

theorem Statement.isInBlock_sites (stop : Position) (x : Statement Word flavor) :
    ∀ s ∈ x.sites stop, s.isInBlock = true := by
  cases x with
  | description keyword text close => exact isInBlock_wordSites _
  | rule keyword condition goto target close =>
    simp only [sites, List.forall_mem_cons, List.forall_mem_append]
    exact ⟨rfl, rfl, isInBlock_wordSites _, rfl, rfl, isInBlock_wordSites _⟩
  | action keyword effect close =>
    simp only [sites, List.forall_mem_cons, List.forall_mem_append]
    exact ⟨rfl, rfl, isInBlock_wordSites _, isInBlock_wordSites _⟩
  | conditional c keyword condition effect close =>
    simp only [sites, List.forall_mem_cons, List.forall_mem_append]
    exact ⟨rfl, condition.isInBlock_sites _ _ _, effect.isInBlock_sites _ _ _, isInBlock_wordSites _⟩
  | unconditional c keyword effect close =>
    simp only [sites, List.forall_mem_cons, List.forall_mem_append]
    exact ⟨rfl, effect.isInBlock_sites _ _ _, isInBlock_wordSites _⟩

theorem StateBlock.exists_sites (x : StateBlock Word flavor) :
    ∃ ss, x.sites = .state x :: ss ∧ ∀ s ∈ ss, s.isInBlock = true := by
  refine ⟨_, rfl, ?_⟩
  simp only [List.forall_mem_append]
  refine ⟨isInBlock_wordSites _, fun s hs => ?_, isInBlock_wordSites _⟩
  obtain ⟨y, -, hs⟩ := List.mem_flatMap.mp hs
  exact y.isInBlock_sites _ s hs

theorem filterMap_main {ss : List (Site flavor)} (h : ∀ s ∈ ss, s.isInBlock = true) :
    ss.filterMap Site.main? = [] := by
  refine List.filterMap_eq_nil_iff.mpr fun s hs => ?_
  have hs := h s hs
  cases s <;> first | rfl | cases hs

theorem filterMap_state {ss : List (Site flavor)} (h : ∀ s ∈ ss, s.isInBlock = true) :
    ss.filterMap Site.state? = [] := by
  refine List.filterMap_eq_nil_iff.mpr fun s hs => ?_
  have hs := h s hs
  cases s <;> first | rfl | cases hs

/-- **The sites of main blocks** are the main blocks, all but the first marked. -/
theorem Quest.main_sites (q : Quest Word flavor) :
    q.sites.filterMap Site.main? = marked false q.mains := by
  rw [sites, mains]
  generalize false = seen
  induction q.blocks generalizing seen with
  | nil => rfl
  | cons x xs ih =>
    rw [sitesFrom, List.filterMap_append, ih]
    cases x with
    | main x =>
      rw [Block.sites, List.filterMap_cons, filterMap_main (isInBlock_wordSites _),
        Block.seenAfter, List.filterMap_cons]
      simp [Block.main?, Site.main?, marked]
    | state x =>
      obtain ⟨ss, hss, hin⟩ := x.exists_sites
      rw [Block.sites, hss, List.filterMap_cons_none rfl, filterMap_main hin, Block.seenAfter,
        List.filterMap_cons_none rfl]
      simp [Block.main?]

/-- **The sites of states** are the states. -/
theorem Quest.state_sites (q : Quest Word flavor) : q.sites.filterMap Site.state? = q.states := by
  rw [sites, states]
  generalize false = seen
  induction q.blocks generalizing seen with
  | nil => rfl
  | cons x xs ih =>
    rw [sitesFrom, List.filterMap_append, ih]
    cases x with
    | main x =>
      rw [Block.sites, List.filterMap_cons_none rfl, filterMap_state (isInBlock_wordSites _),
        List.filterMap_cons_none rfl]
      rfl
    | state x =>
      obtain ⟨ss, hss, hin⟩ := x.exists_sites
      rw [Block.sites, hss, List.filterMap_cons, filterMap_state hin, List.filterMap_cons]
      rfl

end AtBlocks

end QuestScript.Ast
