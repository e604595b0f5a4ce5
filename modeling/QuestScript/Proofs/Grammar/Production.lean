import Mathlib.Computability.RegularExpressions
import QuestScript.Grammar.Argument
import QuestScript.Tree.Basic

/-! # The grammar of quests

The grammar of each flavor, rule by rule, as it stands in the language's documentation: a rule has a
regular expression over the kinds of tokens and nodes on its right (`production`). A sequence of
kinds of tokens is derivable (`Derives`) if it comes from a kind of node by the rules; a tree is a
derivation (`Tree.IsDerivation`) if the children of each of its nodes spell out the node's rule.

* `Tree.IsDerivation.derives`: a derivation tree derives the kinds of its leaves.
* `Derives.exists_tree`: tokens whose kinds are derivable are the leaves of a derivation tree. -/

namespace QuestScript

/-! ### Right sides of rules -/

/-- The right side of a rule. -/
abbrev Rhs := RegularExpression Kind

namespace Rhs

/-- A token of the kind. -/
def token (k : TokenKind) : Rhs := .char (.token k)

/-- A reserved word. -/
def keyword (k : Keyword) : Rhs := token (.keyword k)

/-- What the rule of the kind of node derives. -/
def node (n : NodeKind) : Rhs := .char (.node n)

/-- The expression or nothing. -/
def optional (e : Rhs) : Rhs := 1 + e

/-- Any number of repetitions. -/
def many (e : Rhs) : Rhs := .star e

/-- One after another. -/
def sequence : List Rhs → Rhs
  | [] => 1
  | e :: es => e * sequence es

/-- One of several. -/
def choice : List Rhs → Rhs
  | [] => 0
  | e :: es => e + choice es

/-- The optional end of a statement or of an attribute. -/
def semicolon : Rhs := optional (token .semicolon)

end Rhs

open Rhs in
/-- **The grammar of a flavor.** -/
def production : Flavor → NodeKind → Rhs
  | _, .file => many (node .block)
  | _, .block => choice [node .mainBlock, node .stateBlock]
  | _, .mainBlock =>
    sequence [keyword .main, token .leftBrace, many (node .mainAttribute), token .rightBrace]
  | _, .mainAttribute =>
    choice [node .questNameAttribute, node .versionAttribute, node .hiddenAttribute,
      node .hiddenEndAttribute, node .disabledAttribute]
  | _, .questNameAttribute => sequence [keyword .questName, token .string, semicolon]
  | _, .versionAttribute => sequence [keyword .version, token .integer, semicolon]
  | _, .hiddenAttribute => sequence [keyword .hidden, semicolon]
  | _, .hiddenEndAttribute => sequence [keyword .hiddenEnd, semicolon]
  | _, .disabledAttribute => sequence [keyword .disabled, semicolon]
  | _, .stateBlock =>
    sequence [keyword .state, token .identifier, token .leftBrace, many (node .statement),
      token .rightBrace]
  | .official, .statement => choice [node .description, node .rule, node .action]
  | .eoserv, .statement =>
    choice [node .description, node .rule, node .goal, node .ifThen, node .elseIf, node .otherwise,
      node .action]
  | _, .description => sequence [keyword .description, token .string, semicolon]
  | .official, .rule =>
    sequence [keyword .rule, token .identifier, node .argumentList, keyword .goto,
      token .identifier, semicolon]
  | .official, .action =>
    sequence [keyword .action, token .identifier, node .argumentList, semicolon]
  | .eoserv, .rule => sequence [keyword .rule, node .expression, node .expression, semicolon]
  | .eoserv, .goal => sequence [keyword .goal, node .expression, node .expression, semicolon]
  | .eoserv, .ifThen => sequence [keyword .ifThen, node .expression, node .expression, semicolon]
  | .eoserv, .elseIf => sequence [keyword .elseIf, node .expression, node .expression, semicolon]
  | .eoserv, .otherwise => sequence [keyword .otherwise, node .expression, semicolon]
  | .eoserv, .action => sequence [keyword .action, node .expression, semicolon]
  | .eoserv, .invocationExpression => sequence [token .identifier, node .argumentList]
  | .eoserv, .gotoExpression => sequence [keyword .goto, token .identifier]
  | _, .argumentList =>
    sequence [token .leftParen, optional (node .arguments), token .rightParen]
  | .official, .arguments =>
    sequence [node .expression, many (sequence [token .comma, node .expression])]
  | .eoserv, .arguments =>
    sequence [node .argumentExpression, many (sequence [token .comma, node .argumentExpression])]
  | .official, .expression => node .literal
  | .eoserv, .expression =>
    choice [node .invocationExpression, node .gotoExpression, node .literal]
  | .eoserv, .argumentExpression => node .literal
  | _, .literal => choice [token .integer, token .string]
  | _, _ => 0

/-! ### Derivability -/

mutual
/-- The rules derive a sequence of kinds of tokens from a kind. -/
inductive Derives (flavor : Flavor) : Kind → List TokenKind → Prop
  | token (k : TokenKind) : Derives flavor (.token k) [k]
  | node {n : NodeKind} {ks : List Kind} {w : List TokenKind} :
    ks ∈ (production flavor n).matches' → DerivesAll flavor ks w → Derives flavor (.node n) w
/-- The rules derive a sequence of kinds of tokens from several kinds in turn. -/
inductive DerivesAll (flavor : Flavor) : List Kind → List TokenKind → Prop
  | nil : DerivesAll flavor [] []
  | cons {k : Kind} {ks : List Kind} {v w : List TokenKind} :
    Derives flavor k v → DerivesAll flavor ks w → DerivesAll flavor (k :: ks) (v ++ w)
end

/-- The tree is a derivation: the children of every node spell out the node's rule. -/
inductive Tree.IsDerivation (flavor : Flavor) : Tree → Prop
  | token (t : Token) : IsDerivation flavor (.token t)
  | node {n : NodeKind} {cs : List Tree} : cs.map Tree.kind ∈ (production flavor n).matches' →
    (∀ c ∈ cs, IsDerivation flavor c) → IsDerivation flavor (.node n cs)

namespace Tree.IsDerivation
variable {flavor : Flavor}

mutual
theorem derives : ∀ {t : Tree}, t.IsDerivation flavor →
    Derives flavor t.kind (t.leaves.map (·.kind))
  | .token t, _ => by
    rw [leaves_token]
    exact .token t.kind
  | .node n cs, .node hcs hall => by
    rw [leaves_node]
    exact .node hcs (derivesAll hall)
theorem derivesAll : ∀ {ts : List Tree}, (∀ t ∈ ts, t.IsDerivation flavor) →
    DerivesAll flavor (ts.map kind) ((leavesOf ts).map (·.kind))
  | [], _ => by
    rw [leavesOf_nil]
    exact .nil
  | t :: ts, h => by
    rw [leavesOf_cons, List.map_append]
    exact .cons (derives (h t (by simp))) (derivesAll fun u hu => h u (by simp [hu]))
end

mutual
theorem subtrees : ∀ {t : Tree}, t.IsDerivation flavor → ∀ u ∈ t.subtrees, u.IsDerivation flavor
  | .token s, h, u, hu => by
    rw [Tree.subtrees, List.mem_singleton] at hu
    rwa [hu]
  | .node n cs, .node hcs hall, u, hu => by
    rw [Tree.subtrees, List.mem_cons] at hu
    rcases hu with rfl | hu
    · exact .node hcs hall
    · exact subtreesOf hall u hu
theorem subtreesOf : ∀ {ts : List Tree}, (∀ t ∈ ts, t.IsDerivation flavor) →
    ∀ u ∈ Tree.subtreesOf ts, u.IsDerivation flavor
  | [], _, u, hu => by simp [Tree.subtreesOf] at hu
  | t :: ts, h, u, hu => by
    rw [Tree.subtreesOf, List.mem_append] at hu
    rcases hu with hu | hu
    · exact (h t List.mem_cons_self).subtrees u hu
    · exact subtreesOf (fun v hv => h v (List.mem_cons_of_mem _ hv)) u hu
end

end Tree.IsDerivation

mutual
/-- **Tokens whose kinds are derivable are the leaves of a derivation tree.** -/
theorem Derives.exists_tree {flavor : Flavor} : ∀ {k : Kind} {w : List TokenKind},
    Derives flavor k w → ∀ {ts : List Token}, ts.map (·.kind) = w →
      ∃ t : Tree, t.IsDerivation flavor ∧ t.kind = k ∧ t.leaves = ts
  | _, _, .token k, ts, h => by
    obtain ⟨t, rest, rfl, rfl, hrest⟩ := List.map_eq_cons_iff.mp h
    obtain rfl := List.map_eq_nil_iff.mp hrest
    exact ⟨.token t, .token t, rfl, Tree.leaves_token t⟩
  | _, _, .node hks hall, ts, h => by
    obtain ⟨cs, hcs, rfl, hl⟩ := DerivesAll.exists_trees hall h
    exact ⟨.node _ cs, .node hks hcs, rfl, by rw [Tree.leaves_node, hl]⟩
theorem DerivesAll.exists_trees {flavor : Flavor} : ∀ {ks : List Kind} {w : List TokenKind},
    DerivesAll flavor ks w → ∀ {ts : List Token}, ts.map (·.kind) = w →
      ∃ cs : List Tree, (∀ c ∈ cs, c.IsDerivation flavor) ∧ cs.map Tree.kind = ks ∧
        Tree.leavesOf cs = ts
  | _, _, .nil, ts, h => by
    obtain rfl := List.map_eq_nil_iff.mp h
    exact ⟨[], by simp, rfl, Tree.leavesOf_nil⟩
  | _, _, .cons hk hks, ts, h => by
    obtain ⟨us, vs, rfl, hu, hv⟩ := List.map_eq_append_iff.mp h
    obtain ⟨c, hc, rfl, hl⟩ := Derives.exists_tree hk hu
    obtain ⟨cs, hcs, rfl, hls⟩ := DerivesAll.exists_trees hks hv
    refine ⟨c :: cs, ?_, rfl, by rw [Tree.leavesOf_cons, hl, hls]⟩
    intro d hd
    rcases List.mem_cons.mp hd with rfl | hd
    · exact hc
    · exact hcs d hd
end

/-! ### Phrases -/

/-- Derivation trees whose kinds match an expression. -/
def Phrase (flavor : Flavor) (e : Rhs) (ts : List Tree) : Prop :=
  ts.map Tree.kind ∈ e.matches' ∧ ∀ t ∈ ts, t.IsDerivation flavor

section Phrase
variable {flavor : Flavor}

theorem phrase_zero {ts : List Tree} : ¬ Phrase flavor 0 ts :=
  fun h => Language.notMem_zero _ h.1

theorem phrase_one {ts : List Tree} : Phrase flavor 1 ts ↔ ts = [] := by
  rw [Phrase, RegularExpression.matches'_epsilon, Language.mem_one, List.map_eq_nil_iff]
  exact ⟨fun h => h.1, by rintro rfl; simp⟩

theorem phrase_add {e f : Rhs} {ts : List Tree} :
    Phrase flavor (e + f) ts ↔ Phrase flavor e ts ∨ Phrase flavor f ts := by
  rw [Phrase, RegularExpression.matches'_add, Language.mem_add, or_and_right]
  rfl

theorem phrase_mul {e f : Rhs} {ts : List Tree} : Phrase flavor (e * f) ts ↔
    ∃ us vs, ts = us ++ vs ∧ Phrase flavor e us ∧ Phrase flavor f vs := by
  rw [Phrase, RegularExpression.matches'_mul, Language.mem_mul]
  constructor
  · rintro ⟨⟨a, ha, b, hb, hab⟩, hd⟩
    obtain ⟨us, vs, rfl, rfl, rfl⟩ := List.map_eq_append_iff.mp hab.symm
    exact ⟨us, vs, rfl, ⟨ha, fun t ht => hd t (by simp [ht])⟩,
      ⟨hb, fun t ht => hd t (by simp [ht])⟩⟩
  · rintro ⟨us, vs, rfl, ⟨hu, hdu⟩, ⟨hv, hdv⟩⟩
    refine ⟨⟨_, hu, _, hv, by rw [List.map_append]⟩, fun t ht => ?_⟩
    rcases List.mem_append.mp ht with ht | ht
    · exact hdu t ht
    · exact hdv t ht

theorem phrase_mul_one {e : Rhs} {ts : List Tree} :
    Phrase flavor (e * 1) ts ↔ Phrase flavor e ts := by
  unfold Phrase
  rw [RegularExpression.matches'_mul, RegularExpression.matches'_epsilon, mul_one]

theorem phrase_token {k : TokenKind} {ts : List Tree} :
    Phrase flavor (Rhs.token k) ts ↔ ∃ t : Token, t.kind = k ∧ ts = [.token t] := by
  rw [Phrase, Rhs.token, RegularExpression.matches'_char]
  constructor
  · rintro ⟨h, -⟩
    obtain ⟨t, rest, rfl, ht, hrest⟩ := List.map_eq_cons_iff.mp h
    obtain rfl := List.map_eq_nil_iff.mp hrest
    cases t with
    | token t => exact ⟨t, Kind.token.inj ht, rfl⟩
    | node => cases ht
  · rintro ⟨t, rfl, rfl⟩
    refine ⟨rfl, fun u hu => ?_⟩
    rw [List.mem_singleton.mp hu]
    exact .token t

theorem phrase_node {n : NodeKind} {ts : List Tree} : Phrase flavor (Rhs.node n) ts ↔
    ∃ cs, ts = [.node n cs] ∧ Phrase flavor (production flavor n) cs := by
  rw [Phrase, Rhs.node, RegularExpression.matches'_char]
  constructor
  · rintro ⟨h, hd⟩
    obtain ⟨t, rest, rfl, ht, hrest⟩ := List.map_eq_cons_iff.mp h
    obtain rfl := List.map_eq_nil_iff.mp hrest
    cases hd t (by simp) with
    | token t => cases ht
    | node hcs hall =>
      cases ht
      exact ⟨_, rfl, hcs, hall⟩
  · rintro ⟨cs, rfl, hcs, hall⟩
    refine ⟨rfl, fun u hu => ?_⟩
    rw [List.mem_singleton.mp hu]
    exact .node hcs hall

theorem phrase_many {e : Rhs} {ts : List Tree} : Phrase flavor e.many ts ↔
    ∃ tss : List (List Tree), ts = tss.flatten ∧ ∀ us ∈ tss, Phrase flavor e us := by
  constructor
  · rintro ⟨h, hd⟩
    obtain ⟨L, hL, hmem⟩ := Language.mem_kstar.mp h
    clear h
    induction L generalizing ts with
    | nil => exact ⟨[], List.map_eq_nil_iff.mp hL, by simp⟩
    | cons w L ih =>
      obtain ⟨us, vs, rfl, hu, hv⟩ := List.map_eq_append_iff.mp hL
      obtain ⟨tss, rfl, htss⟩ := ih (fun t ht => hd t (by simp [ht])) hv
        fun y hy => hmem y (by simp [hy])
      have hus : Phrase flavor e us :=
        ⟨by rw [hu]; exact hmem w (by simp), fun t ht => hd t (by simp [ht])⟩
      exact ⟨us :: tss, rfl, by simpa using ⟨hus, htss⟩⟩
  · rintro ⟨tss, rfl, h⟩
    refine ⟨Language.mem_kstar.mpr ⟨tss.map (·.map Tree.kind), by rw [List.map_flatten], ?_⟩, ?_⟩
    · intro y hy
      obtain ⟨us, hus, rfl⟩ := List.mem_map.mp hy
      exact (h us hus).1
    · intro t ht
      obtain ⟨us, hus, ht⟩ := List.mem_flatten.mp ht
      exact (h us hus).2 t ht

theorem Phrase.many_nil {e : Rhs} : Phrase flavor e.many [] :=
  phrase_many.mpr ⟨[], rfl, by simp⟩

theorem Phrase.many_append {e : Rhs} {us vs : List Tree} (hu : Phrase flavor e us)
    (hv : Phrase flavor e.many vs) : Phrase flavor e.many (us ++ vs) := by
  obtain ⟨tss, rfl, h⟩ := phrase_many.mp hv
  refine phrase_many.mpr ⟨us :: tss, rfl, fun ws hws => ?_⟩
  rcases List.mem_cons.mp hws with rfl | hws
  · exact hu
  · exact h ws hws

theorem phrase_many_node {n : NodeKind} {ts : List Tree} : Phrase flavor (Rhs.node n).many ts ↔
    ∀ t ∈ ts, ∃ cs, t = .node n cs ∧ Phrase flavor (production flavor n) cs := by
  rw [phrase_many]
  constructor
  · rintro ⟨tss, rfl, h⟩ t ht
    obtain ⟨us, hus, ht⟩ := List.mem_flatten.mp ht
    obtain ⟨cs, rfl, hcs⟩ := phrase_node.mp (h us hus)
    exact ⟨cs, List.mem_singleton.mp ht, hcs⟩
  · intro h
    refine ⟨ts.map fun t => [t], (List.flatMap_singleton' ts).symm, fun us hus => ?_⟩
    obtain ⟨t, ht, rfl⟩ := List.mem_map.mp hus
    obtain ⟨cs, rfl, hcs⟩ := h t ht
    exact phrase_node.mpr ⟨cs, rfl, hcs⟩

theorem phrase_optional {e : Rhs} {ts : List Tree} :
    Phrase flavor e.optional ts ↔ ts = [] ∨ Phrase flavor e ts := by
  rw [Rhs.optional, phrase_add, phrase_one]

theorem phrase_sequence_nil {ts : List Tree} : Phrase flavor (Rhs.sequence []) ts ↔ ts = [] :=
  phrase_one

theorem phrase_sequence_cons {e : Rhs} {es : List Rhs} {ts : List Tree} :
    Phrase flavor (Rhs.sequence (e :: es)) ts ↔
      ∃ us vs, ts = us ++ vs ∧ Phrase flavor e us ∧ Phrase flavor (Rhs.sequence es) vs :=
  phrase_mul

theorem phrase_sequence_append {es fs : List Rhs} {ts : List Tree} :
    Phrase flavor (Rhs.sequence (es ++ fs)) ts ↔
      ∃ us vs, ts = us ++ vs ∧ Phrase flavor (Rhs.sequence es) us ∧
        Phrase flavor (Rhs.sequence fs) vs := by
  induction es generalizing ts with
  | nil => simp [phrase_sequence_nil]
  | cons e es ih =>
    rw [List.cons_append, phrase_sequence_cons]
    constructor
    · rintro ⟨us, vs, rfl, hu, hv⟩
      obtain ⟨xs, ys, rfl, hx, hy⟩ := ih.mp hv
      exact ⟨us ++ xs, ys, (List.append_assoc us xs ys).symm,
        phrase_sequence_cons.mpr ⟨us, xs, rfl, hu, hx⟩, hy⟩
    · rintro ⟨us, vs, rfl, hu, hv⟩
      obtain ⟨xs, ys, rfl, hx, hy⟩ := phrase_sequence_cons.mp hu
      exact ⟨xs, ys ++ vs, List.append_assoc xs ys vs, hx, ih.mpr ⟨ys, vs, rfl, hy, hv⟩⟩

theorem phrase_choice {es : List Rhs} {ts : List Tree} :
    Phrase flavor (Rhs.choice es) ts ↔ ∃ e ∈ es, Phrase flavor e ts := by
  induction es with
  | nil => simpa [Rhs.choice] using phrase_zero
  | cons e es ih => rw [Rhs.choice, phrase_add, ih, List.exists_mem_cons_iff]

theorem isDerivation_node {n : NodeKind} {cs : List Tree} :
    (Tree.node n cs).IsDerivation flavor ↔ Phrase flavor (production flavor n) cs :=
  ⟨fun h => by cases h with | node hcs hall => exact ⟨hcs, hall⟩, fun h => .node h.1 h.2⟩

end Phrase

end QuestScript
