import QuestScript.Proofs.Ast.Tree
import QuestScript.Proofs.Grammar.Sound

/-! # Derivation trees are trees of quests

The grammar, read backwards: from a phrase of the right side of a rule one gets the construct whose
node it fills. So every derivation of a file is the tree of a quest (`exists_quest`). -/

namespace QuestScript.Ast

open Grammar

variable {flavor : Flavor}

/-! ### Words and arguments -/

theorem exists_map {β : Type} {tree : β → Tree} {ts : List Tree} (h : ∀ t ∈ ts, ∃ x, tree x = t) :
    ∃ xs : List β, xs.map tree = ts := by
  induction ts with
  | nil => exact ⟨[], rfl⟩
  | cons t ts ih =>
    obtain ⟨x, hx⟩ := h t (by simp)
    obtain ⟨xs, hxs⟩ := ih fun u hu => h u (by simp [hu])
    exact ⟨x :: xs, by rw [List.map_cons, hx, hxs]⟩

theorem exists_word_cons {k : TokenKind} {es : List Rhs} {ts : List Tree}
    (h : Phrase flavor (Rhs.sequence (Rhs.token k :: es)) ts) :
    ∃ (w : Word k) (us : List Tree), ts = w.tree :: us ∧ Phrase flavor (Rhs.sequence es) us := by
  obtain ⟨vs, us, rfl, hv, hu⟩ := phrase_sequence_cons.mp h
  obtain ⟨t, ht, rfl⟩ := phrase_token.mp hv
  exact ⟨⟨t, ht⟩, us, rfl, hu⟩

theorem exists_node_cons {n : NodeKind} {es : List Rhs} {ts : List Tree}
    (h : Phrase flavor (Rhs.sequence (Rhs.node n :: es)) ts) :
    ∃ cs us : List Tree, ts = .node n cs :: us ∧ Phrase flavor (production flavor n) cs ∧
      Phrase flavor (Rhs.sequence es) us := by
  obtain ⟨vs, us, rfl, hv, hu⟩ := phrase_sequence_cons.mp h
  obtain ⟨cs, rfl, hcs⟩ := phrase_node.mp hv
  exact ⟨cs, us, rfl, hcs, hu⟩

theorem exists_close {ts : List Tree} (h : Phrase flavor (Rhs.sequence [Rhs.semicolon]) ts) :
    ∃ close, ts = closeTrees close := by
  obtain ⟨us, vs, rfl, hu, hv⟩ := phrase_sequence_cons.mp h
  obtain rfl := phrase_sequence_nil.mp hv
  rcases phrase_optional.mp hu with rfl | hu
  · exact ⟨none, rfl⟩
  · obtain ⟨t, ht, rfl⟩ := phrase_token.mp hu
    exact ⟨some ⟨t, ht⟩, rfl⟩

theorem exists_literal {cs : List Tree} (h : Phrase flavor (production flavor .literal) cs) :
    ∃ x : Literal Word, cs = [.token x.token] := by
  rw [production_literal, phrase_choice] at h
  obtain ⟨e, he, h⟩ := h
  have hkind : ∃ k ∈ literalFirst, e = Rhs.token k := by
    rcases List.mem_cons.mp he with he | he
    · exact ⟨.integer, by simp [literalFirst], he⟩
    · exact ⟨.string, by simp [literalFirst], List.mem_singleton.mp he⟩
  obtain ⟨k, hk, rfl⟩ := hkind
  obtain ⟨t, rfl, rfl⟩ := phrase_token.mp h
  obtain ⟨x, rfl⟩ := Literal.exists_token hk
  exact ⟨x, rfl⟩

theorem exists_argument {cs : List Tree}
    (h : Phrase flavor (production flavor (argumentKind flavor)) cs) :
    ∃ x : Literal Word, cs = [literalTree x.token] := by
  rw [production_argument] at h
  obtain ⟨ds, rfl, hds⟩ := phrase_node.mp h
  obtain ⟨x, rfl⟩ := exists_literal hds
  exact ⟨x, rfl⟩

theorem exists_commaTrees {ts : List Tree}
    (h : Phrase flavor (Rhs.sequence [Rhs.token .comma, Rhs.node (argumentKind flavor)]).many ts) :
    ∃ more : List (Word .comma × Literal Word),
      ts = more.flatMap (ArgumentList.commaTrees (argumentKind flavor)) := by
  obtain ⟨tss, rfl, htss⟩ := phrase_many.mp h
  clear h
  induction tss with
  | nil => exact ⟨[], rfl⟩
  | cons us tss ih =>
    obtain ⟨more, hmore⟩ := ih fun vs hvs => htss vs (by simp [hvs])
    obtain ⟨w, vs, rfl, hvs⟩ := exists_word_cons (htss us (by simp))
    obtain ⟨cs, rest, rfl, hcs, hrest⟩ := exists_node_cons hvs
    obtain ⟨x, rfl⟩ := exists_argument hcs
    obtain rfl := phrase_sequence_nil.mp hrest
    exact ⟨(w, x) :: more, by rw [List.flatten_cons, hmore]; rfl⟩

theorem exists_innerTrees {ts : List Tree} (h : Phrase flavor (Rhs.node .arguments).optional ts) :
    ∃ x, ts = ArgumentList.innerTrees (argumentKind flavor) x := by
  rcases phrase_optional.mp h with rfl | h
  · exact ⟨none, rfl⟩
  · obtain ⟨cs, rfl, hcs⟩ := phrase_node.mp h
    rw [production_arguments] at hcs
    obtain ⟨ds, us, rfl, hds, hus⟩ := exists_node_cons hcs
    obtain ⟨first, rfl⟩ := exists_argument hds
    obtain ⟨vs, rest, rfl, hvs, hrest⟩ := phrase_sequence_cons.mp hus
    obtain ⟨more, rfl⟩ := exists_commaTrees hvs
    obtain rfl := phrase_sequence_nil.mp hrest
    exact ⟨some (first, more), by rw [List.append_nil]; rfl⟩

theorem exists_argumentList {cs : List Tree}
    (h : Phrase flavor (production flavor .argumentList) cs) :
    ∃ x : ArgumentList Word, Tree.node .argumentList cs = x.toTree (argumentKind flavor) := by
  rw [production_argumentList] at h
  obtain ⟨opening, us, rfl, hus⟩ := exists_word_cons h
  obtain ⟨vs, ws, rfl, hvs, hws⟩ := phrase_sequence_cons.mp hus
  obtain ⟨inner, rfl⟩ := exists_innerTrees hvs
  obtain ⟨closing, rest, rfl, hrest⟩ := exists_word_cons hws
  obtain rfl := phrase_sequence_nil.mp hrest
  exact ⟨⟨opening, inner, closing⟩, rfl⟩

/-! ### Statements -/

theorem exists_expression {cs : List Tree} (h : Phrase .eoserv (production .eoserv .expression) cs) :
    ∃ x : Expression Word, Tree.node .expression cs = x.toTree := by
  obtain ⟨e, he, h⟩ := phrase_choice.mp h
  rcases List.mem_cons.mp he with rfl | he
  · obtain ⟨ds, rfl, hds⟩ := phrase_node.mp h
    obtain ⟨callee, us, rfl, hus⟩ := exists_word_cons hds
    obtain ⟨as, rest, rfl, has, hrest⟩ := exists_node_cons hus
    obtain ⟨arguments, harguments⟩ := exists_argumentList has
    obtain rfl := phrase_sequence_nil.mp hrest
    exact ⟨.invocation ⟨callee, arguments⟩, by rw [harguments]; rfl⟩
  rcases List.mem_cons.mp he with rfl | he
  · obtain ⟨ds, rfl, hds⟩ := phrase_node.mp h
    obtain ⟨keyword, us, rfl, hus⟩ := exists_word_cons hds
    obtain ⟨target, rest, rfl, hrest⟩ := exists_word_cons hus
    obtain rfl := phrase_sequence_nil.mp hrest
    exact ⟨.goto keyword target, rfl⟩
  · obtain rfl := List.mem_singleton.mp he
    obtain ⟨ds, rfl, hds⟩ := phrase_node.mp h
    obtain ⟨x, rfl⟩ := exists_literal hds
    exact ⟨.literal x, rfl⟩

theorem exists_alternative {ns : List NodeKind} {ts : List Tree}
    (h : Phrase flavor (Rhs.choice (ns.map Rhs.node)) ts) :
    ∃ n ∈ ns, ∃ cs, ts = [.node n cs] ∧ Phrase flavor (production flavor n) cs := by
  obtain ⟨e, he, h⟩ := phrase_choice.mp h
  obtain ⟨n, hn, rfl⟩ := List.mem_map.mp he
  exact ⟨n, hn, phrase_node.mp h⟩

theorem production_description : production flavor .description =
    Rhs.sequence [Rhs.keyword .description, Rhs.token .string, Rhs.semicolon] := by
  cases flavor <;> rfl

theorem production_conditional (c : Conditional) : production .eoserv c.nodeKind = Rhs.sequence
    [Rhs.keyword c.keyword, Rhs.node .expression, Rhs.node .expression, Rhs.semicolon] := by
  cases c <;> rfl

theorem production_unconditional (c : Unconditional) : production .eoserv c.nodeKind =
    Rhs.sequence [Rhs.keyword c.keyword, Rhs.node .expression, Rhs.semicolon] := by
  cases c <;> rfl

section Statement
variable {cs : List Tree}

theorem exists_description (h : Phrase flavor (production flavor .description) cs) :
    ∃ x : Statement Word flavor, .node .description cs = x.inner := by
  rw [production_description] at h
  obtain ⟨keyword, us, rfl, hus⟩ := exists_word_cons h
  obtain ⟨text, vs, rfl, hvs⟩ := exists_word_cons hus
  obtain ⟨close, rfl⟩ := exists_close hvs
  exact ⟨.description keyword text close, rfl⟩

theorem exists_officialRule (h : Phrase .official (production .official .rule) cs) :
    ∃ x : Statement Word .official, .node .rule cs = x.inner := by
  obtain ⟨keyword, us, rfl, hus⟩ := exists_word_cons h
  obtain ⟨callee, vs, rfl, hvs⟩ := exists_word_cons hus
  obtain ⟨as, ws, rfl, has, hws⟩ := exists_node_cons hvs
  obtain ⟨arguments, harguments⟩ := exists_argumentList has
  obtain ⟨goto, xs, rfl, hxs⟩ := exists_word_cons hws
  obtain ⟨target, ys, rfl, hys⟩ := exists_word_cons hxs
  obtain ⟨close, rfl⟩ := exists_close hys
  exact ⟨.rule keyword ⟨callee, arguments⟩ goto target close, by rw [harguments]; rfl⟩

theorem exists_officialAction (h : Phrase .official (production .official .action) cs) :
    ∃ x : Statement Word .official, .node .action cs = x.inner := by
  obtain ⟨keyword, us, rfl, hus⟩ := exists_word_cons h
  obtain ⟨callee, vs, rfl, hvs⟩ := exists_word_cons hus
  obtain ⟨as, ws, rfl, has, hws⟩ := exists_node_cons hvs
  obtain ⟨arguments, harguments⟩ := exists_argumentList has
  obtain ⟨close, rfl⟩ := exists_close hws
  exact ⟨.action keyword ⟨callee, arguments⟩ close, by rw [harguments]; rfl⟩

theorem exists_conditional (c : Conditional) (h : Phrase .eoserv (production .eoserv c.nodeKind) cs) :
    ∃ x : Statement Word .eoserv, .node c.nodeKind cs = x.inner := by
  rw [production_conditional] at h
  obtain ⟨keyword, us, rfl, hus⟩ := exists_word_cons h
  obtain ⟨as, vs, rfl, has, hvs⟩ := exists_node_cons hus
  obtain ⟨condition, hcondition⟩ := exists_expression has
  obtain ⟨bs, ws, rfl, hbs, hws⟩ := exists_node_cons hvs
  obtain ⟨effect, heffect⟩ := exists_expression hbs
  obtain ⟨close, rfl⟩ := exists_close hws
  exact ⟨.conditional c keyword condition effect close, by rw [hcondition, heffect]; rfl⟩

theorem exists_unconditional (c : Unconditional)
    (h : Phrase .eoserv (production .eoserv c.nodeKind) cs) :
    ∃ x : Statement Word .eoserv, .node c.nodeKind cs = x.inner := by
  rw [production_unconditional] at h
  obtain ⟨keyword, us, rfl, hus⟩ := exists_word_cons h
  obtain ⟨as, vs, rfl, has, hvs⟩ := exists_node_cons hus
  obtain ⟨effect, heffect⟩ := exists_expression has
  obtain ⟨close, rfl⟩ := exists_close hvs
  exact ⟨.unconditional c keyword effect close, by rw [heffect]; rfl⟩

theorem production_officialStatement : production .official .statement =
    Rhs.choice (([.description, .rule, .action] : List NodeKind).map Rhs.node) := rfl

theorem production_eoservStatement : production .eoserv .statement =
    Rhs.choice (([.description, .rule, .goal, .ifThen, .elseIf, .otherwise, .action] :
      List NodeKind).map Rhs.node) := rfl

theorem exists_statement (h : Phrase flavor (production flavor .statement) cs) :
    ∃ x : Statement Word flavor, x.toTree = .node .statement cs := by
  suffices ∃ x : Statement Word flavor, cs = [x.inner] by
    obtain ⟨x, rfl⟩ := this
    exact ⟨x, rfl⟩
  cases flavor with
  | official =>
    rw [production_officialStatement] at h
    obtain ⟨n, hn, ds, rfl, hds⟩ := exists_alternative h
    have hx : ∃ x : Statement Word .official, .node n ds = x.inner := by
      simp only [List.mem_cons, List.not_mem_nil, or_false] at hn
      rcases hn with rfl | rfl | rfl
      · exact exists_description hds
      · exact exists_officialRule hds
      · exact exists_officialAction hds
    obtain ⟨x, hx⟩ := hx
    exact ⟨x, by rw [hx]⟩
  | eoserv =>
    rw [production_eoservStatement] at h
    obtain ⟨n, hn, ds, rfl, hds⟩ := exists_alternative h
    have hx : ∃ x : Statement Word .eoserv, .node n ds = x.inner := by
      simp only [List.mem_cons, List.not_mem_nil, or_false] at hn
      rcases hn with rfl | rfl | rfl | rfl | rfl | rfl | rfl
      · exact exists_description hds
      · exact exists_conditional .rule hds
      · exact exists_conditional .goal hds
      · exact exists_conditional .ifThen hds
      · exact exists_conditional .elseIf hds
      · exact exists_unconditional .otherwise hds
      · exact exists_unconditional .action hds
    obtain ⟨x, hx⟩ := hx
    exact ⟨x, by rw [hx]⟩

end Statement

/-! ### Blocks -/

section Block
variable {cs : List Tree}

theorem production_flag (f : Flag) : production flavor f.nodeKind =
    Rhs.sequence [Rhs.keyword f.keyword, Rhs.semicolon] := by
  cases flavor <;> cases f <;> rfl

theorem production_mainAttribute : production flavor .mainAttribute = Rhs.choice
    (([.questNameAttribute, .versionAttribute, .hiddenAttribute, .hiddenEndAttribute,
      .disabledAttribute] : List NodeKind).map Rhs.node) := by
  cases flavor <;> rfl

theorem exists_flag (f : Flag) (h : Phrase flavor (production flavor f.nodeKind) cs) :
    ∃ x : Attribute Word, .node f.nodeKind cs = x.inner := by
  rw [production_flag] at h
  obtain ⟨keyword, us, rfl, hus⟩ := exists_word_cons h
  obtain ⟨close, rfl⟩ := exists_close hus
  exact ⟨.flag f keyword close, rfl⟩

theorem exists_questName (h : Phrase flavor (Rhs.sequence
    [Rhs.keyword .questName, Rhs.token .string, Rhs.semicolon]) cs) :
    ∃ x : Attribute Word, .node .questNameAttribute cs = x.inner := by
  obtain ⟨keyword, us, rfl, hus⟩ := exists_word_cons h
  obtain ⟨value, vs, rfl, hvs⟩ := exists_word_cons hus
  obtain ⟨close, rfl⟩ := exists_close hvs
  exact ⟨.questName keyword value close, rfl⟩

theorem exists_version (h : Phrase flavor (Rhs.sequence
    [Rhs.keyword .version, Rhs.token .integer, Rhs.semicolon]) cs) :
    ∃ x : Attribute Word, .node .versionAttribute cs = x.inner := by
  obtain ⟨keyword, us, rfl, hus⟩ := exists_word_cons h
  obtain ⟨value, vs, rfl, hvs⟩ := exists_word_cons hus
  obtain ⟨close, rfl⟩ := exists_close hvs
  exact ⟨.version keyword value close, rfl⟩

theorem exists_attribute (h : Phrase flavor (production flavor .mainAttribute) cs) :
    ∃ x : Attribute Word, x.toTree = .node .mainAttribute cs := by
  rw [production_mainAttribute] at h
  obtain ⟨n, hn, ds, rfl, hds⟩ := exists_alternative h
  have hx : ∃ x : Attribute Word, .node n ds = x.inner := by
    simp only [List.mem_cons, List.not_mem_nil, or_false] at hn
    rcases hn with rfl | rfl | rfl | rfl | rfl
    · cases flavor <;> exact exists_questName hds
    · cases flavor <;> exact exists_version hds
    · exact exists_flag .hidden hds
    · exact exists_flag .hiddenEnd hds
    · exact exists_flag .disabled hds
  obtain ⟨x, hx⟩ := hx
  exact ⟨x, by rw [hx]; rfl⟩

theorem production_mainBlock : production flavor .mainBlock = Rhs.sequence
    [Rhs.keyword .main, Rhs.token .leftBrace, (Rhs.node .mainAttribute).many,
      Rhs.token .rightBrace] := by
  cases flavor <;> rfl

theorem production_stateBlock : production flavor .stateBlock = Rhs.sequence
    [Rhs.keyword .state, Rhs.token .identifier, Rhs.token .leftBrace, (Rhs.node .statement).many,
      Rhs.token .rightBrace] := by
  cases flavor <;> rfl

theorem exists_mainBlock (h : Phrase flavor (production flavor .mainBlock) cs) :
    ∃ x : MainBlock Word, .node .mainBlock cs = x.toTree := by
  rw [production_mainBlock] at h
  obtain ⟨keyword, us, rfl, hus⟩ := exists_word_cons h
  obtain ⟨opening, vs, rfl, hvs⟩ := exists_word_cons hus
  obtain ⟨as, ws, rfl, has, hws⟩ := phrase_sequence_cons.mp hvs
  obtain ⟨closing, rest, rfl, hrest⟩ := exists_word_cons hws
  obtain rfl := phrase_sequence_nil.mp hrest
  have hattribute : ∀ t ∈ as, ∃ x : Attribute Word, x.toTree = t := by
    intro t ht
    obtain ⟨ds, rfl, hds⟩ := phrase_many_node.mp has t ht
    exact exists_attribute hds
  obtain ⟨attributes, rfl⟩ := exists_map hattribute
  exact ⟨⟨keyword, opening, attributes, closing⟩, rfl⟩

theorem exists_stateBlock (h : Phrase flavor (production flavor .stateBlock) cs) :
    ∃ x : StateBlock Word flavor, .node .stateBlock cs = x.toTree := by
  rw [production_stateBlock] at h
  obtain ⟨keyword, us, rfl, hus⟩ := exists_word_cons h
  obtain ⟨name, vs, rfl, hvs⟩ := exists_word_cons hus
  obtain ⟨opening, ws, rfl, hws⟩ := exists_word_cons hvs
  obtain ⟨as, xs, rfl, has, hxs⟩ := phrase_sequence_cons.mp hws
  obtain ⟨closing, rest, rfl, hrest⟩ := exists_word_cons hxs
  obtain rfl := phrase_sequence_nil.mp hrest
  have hstatement : ∀ t ∈ as, ∃ x : Statement Word flavor, x.toTree = t := by
    intro t ht
    obtain ⟨ds, rfl, hds⟩ := phrase_many_node.mp has t ht
    exact exists_statement hds
  obtain ⟨statements, rfl⟩ := exists_map hstatement
  exact ⟨⟨keyword, name, opening, statements, closing⟩, rfl⟩

theorem production_block : production flavor .block =
    Rhs.choice (([.mainBlock, .stateBlock] : List NodeKind).map Rhs.node) := by
  cases flavor <;> rfl

theorem exists_block (h : Phrase flavor (production flavor .block) cs) :
    ∃ x : Block Word flavor, x.toTree = .node .block cs := by
  rw [production_block] at h
  obtain ⟨n, hn, ds, rfl, hds⟩ := exists_alternative h
  simp only [List.mem_cons, List.not_mem_nil, or_false] at hn
  rcases hn with rfl | rfl
  · obtain ⟨x, hx⟩ := exists_mainBlock hds
    exact ⟨.main x, by rw [hx]; rfl⟩
  · obtain ⟨x, hx⟩ := exists_stateBlock hds
    exact ⟨.state x, by rw [hx]; rfl⟩

theorem production_file : production flavor .file = (Rhs.node .block).many := by
  cases flavor <;> rfl

end Block

/-- **Every derivation of a file is the tree of a quest.** -/
theorem exists_quest {t : Tree} (h : t.IsDerivation flavor) (hfile : t.kind = .node .file) :
    ∃ q : Quest Word flavor, q.toTree = t := by
  cases t with
  | token t => cases hfile
  | node n cs =>
    cases hfile
    have hcs := isDerivation_node.mp h
    rw [production_file] at hcs
    have hblock : ∀ c ∈ cs, ∃ x : Block Word flavor, x.toTree = c := by
      intro c hc
      obtain ⟨ds, rfl, hds⟩ := phrase_many_node.mp hcs c hc
      exact exists_block hds
    obtain ⟨blocks, rfl⟩ := exists_map hblock
    exact ⟨⟨blocks⟩, rfl⟩

end QuestScript.Ast
