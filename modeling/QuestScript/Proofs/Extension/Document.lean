import QuestScript.Proofs.Check.Names
import QuestScript.Proofs.Check.WellFormed
import QuestScript.Proofs.Extension.Translation
import QuestScript.Proofs.Extension.Words

/-! # EOSERV extends the official language

A document without syntax errors in the official language, in which no word is one that only EOSERV
reserves, is an EOSERV document with the same tokens: the translation of the quest that it is
(`tree_eoserv`). So its names refer to the same, its states are the same, and it is well-formed if it
was (`eoserv_extends_official`). -/

namespace QuestScript

open Ast

/-! ### Built-ins -/

namespace Builtin
variable {a b : Builtin}

/-- **Every built-in of the official engine is one of EOSERV**, with the same parameters. -/
theorem exists_eoserv {kind : SymbolKind} (h : b ∈ ofKind .official kind) :
    ∃ a ∈ ofKind .eoserv kind, a.name = b.name ∧ a.parameters = b.parameters := by
  cases kind with
  | rule => exact ⟨b, List.mem_append_left _ h, rfl, rfl⟩
  | action =>
    rcases List.mem_append.mp h with h | h
    · exact ⟨b, List.mem_append_left _ h, rfl, rfl⟩
    · have hall : ∀ b ∈ officialActions, ∃ a ∈ eoservActions,
          a.name = b.name ∧ a.parameters = b.parameters := by decide +kernel
      obtain ⟨a, ha, heq⟩ := hall b h
      exact ⟨a, List.mem_append_right _ ha, heq⟩
  | state => cases h

theorem Accepts.congr (h : a.parameters = b.parameters) {x : ArgumentList Word}
    (hx : b.Accepts x) : a.Accepts x where
  enough := by
    rw [requiredCount, h]
    exact hx.enough
  notTooMany := by
    rw [h]
    exact hx.notTooMany
  types := by
    rw [h]
    exact hx.types

end Builtin

/-! ### Well-formed quests -/

/-- **The translation of a well-formed quest is well-formed.** -/
theorem Ast.Quest.WellFormed.toEoserv {q : Quest Word .official} {casings : List String}
    (h : q.WellFormed casings) : q.toEoserv.WellFormed casings where
  main := by
    rw [q.tokens_toEoserv, q.mains_toEoserv]
    exact h.main
  attributes := by
    rw [q.mains_toEoserv]
    exact h.attributes
  names := by
    rw [q.states_toEoserv, List.map_map]
    exact h.names
  descriptions := by
    rw [q.states_toEoserv, List.forall_mem_map]
    intro x hx
    rw [x.statements_toEoserv, List.countP_map]
    have hcount := h.descriptions x hx
    simpa [Function.comp_def] using hcount
  keywords := by
    rw [q.leaves_toEoserv]
    exact h.keywords
  conditions := by
    rw [q.statements_toEoserv, List.forall_mem_map]
    exact fun x _ => x.hasGotoCondition_toEoserv
  invocations := by
    rw [q.statements_toEoserv, List.forall_mem_map]
    intro x hx p hp
    rw [x.invocations_toEoserv] at hp
    obtain ⟨b, hb, hname, hstate, haccepts⟩ := h.invocations x hx p hp
    obtain ⟨a, ha, haname, hparameters⟩ := Builtin.exists_eoserv hb
    exact ⟨a, ha, haname.trans hname, haname ▸ hstate, haccepts.congr hparameters⟩
  targets := by
    rw [q.leaves_toEoserv, q.states_toEoserv]
    intro l hl hrole
    obtain ⟨x, hx, hname⟩ := h.targets l hl hrole
    exact ⟨x.toEoserv, List.mem_map_of_mem hx, hname⟩

/-! ### States -/

@[simp] theorem Ast.Statement.text?_toEoserv (x : Statement Word .official) :
    x.toEoserv.text? = x.text? := by
  cases x <;> rfl

theorem Ast.StateBlock.text?_toEoserv (x : StateBlock Word .official) :
    x.toEoserv.text? = x.text? := by
  rw [text?, x.statements_toEoserv, List.findSome?_map, text?]
  simp only [Function.comp_def, Statement.text?_toEoserv]

/-! ### Documents -/

namespace Parse
variable {source : String}

section Translation
variable {q : Quest Word .official} (htree : (parse .official source).tree = q.toTree)
  (htokens : (parse .official source).stream.significant = q.tokens)
  (hstream : (parse .eoserv source).stream = (parse .official source).stream)
include htree htokens hstream

omit htree in
theorem significant_eoserv : (parse .eoserv source).stream.significant = q.toEoserv.tokens := by
  rw [hstream, htokens, q.tokens_toEoserv]

omit htree in
/-- **In the EOSERV language the document is the translation of the quest.** -/
theorem tree_eoserv : (parse .eoserv source).errors = [] ∧
    (parse .eoserv source).tree = q.toEoserv.toTree :=
  eq_of_tokens_eq (significant_eoserv htokens hstream)

theorem names_eoserv :
    (Analysis.ofSource .eoserv source).identifiers.map
        (fun i => (i.2, (Analysis.ofSource .eoserv source).referenceKind? i.1)) =
      (Analysis.ofSource .official source).identifiers.map
        (fun i => (i.2, (Analysis.ofSource .official source).referenceKind? i.1)) := by
  rw [Analysis.names_ofSource htree htokens, Analysis.names_ofSource
    (tree_eoserv htokens hstream).2 (significant_eoserv htokens hstream), q.leaves_toEoserv]

theorem states_eoserv :
    (Catalog.ofParse (parse .eoserv source)).states.map (fun s => (s.declaration, s.description)) =
      (Catalog.ofParse (parse .official source)).states.map
        (fun s => (s.declaration, s.description)) := by
  rw [Catalog.states_eq (tree_eoserv htokens hstream).2, Catalog.states_eq htree, List.map_map,
    List.map_map, q.states_toEoserv, List.map_map]
  refine List.map_congr_left fun x _ => ?_
  exact congrArg (Prod.mk x.name.1) x.text?_toEoserv

end Translation

end Parse

theorem Keyword.isCommon_of_spelled {word : List Char}
    (h : ∀ w ∈ ["goal", "if", "elseif", "else"], Ascii.sameWord w.toList word = false) :
    IsCommon word := by
  have hspelled : ∀ k ∈ conditionals, k.spelling ∈ ["goal", "if", "elseif", "else"] := by decide
  exact fun k hk => h k.spelling (hspelled k hk)

theorem analyze_eoserv {source : String} {casings : List String}
    (hstream : TokenStream.ofSource .eoserv source = TokenStream.ofSource .official source)
    (h : analyze .official source casings = []) : analyze .eoserv source casings = [] := by
  rw [analyze_eq_nil_iff] at h ⊢
  obtain ⟨hunknown, -, q, htokens, hq⟩ := h
  rw [hstream, ← htokens, ← q.tokens_toEoserv]
  exact ⟨hunknown, q.toEoserv.derives, q.toEoserv, rfl, hq.toEoserv⟩

/-- **EOSERV extends the official language.** A document that the official lexer and parser take
without complaint, and in which no word is `goal`, `if`, `elseif` or `else` in any letter case, is
taken without complaint in the EOSERV language too; each of its names refers to the same, its states
are the same with the same descriptions, and if it has no official diagnostic it has no diagnostic. -/
theorem eoserv_extends_official (source : String)
    (hlexer : (parse .official source).stream.unknown = [])
    (hparser : (parse .official source).errors = [])
    (hwords : ∀ t ∈ (parse .official source).stream.tokens, t.kind.isWord = true →
      ∀ w ∈ ["goal", "if", "elseif", "else"], Ascii.sameWord w.toList t.text.toList = false) :
    (parse .eoserv source).stream.unknown = [] ∧
    (parse .eoserv source).errors = [] ∧
    (Analysis.ofSource .eoserv source).identifiers.map (·.2) =
      (parse .official source).stream.tokens.filter (·.kind == .identifier) ∧
    (Analysis.ofSource .eoserv source).identifiers.map
        (fun i => (i.2, (Analysis.ofSource .eoserv source).referenceKind? i.1)) =
      (Analysis.ofSource .official source).identifiers.map
        (fun i => (i.2, (Analysis.ofSource .official source).referenceKind? i.1)) ∧
    (Catalog.ofParse (parse .eoserv source)).states.map (fun s => (s.declaration, s.description)) =
      (Catalog.ofParse (parse .official source)).states.map
        (fun s => (s.declaration, s.description)) ∧
    ∀ casings, analyze .official source casings = [] → analyze .eoserv source casings = [] := by
  have hstream : (parse .eoserv source).stream = (parse .official source).stream :=
    TokenStream.ofSource_eoserv fun t ht hword => Keyword.isCommon_of_spelled (hwords t ht hword)
  obtain ⟨q, htree, htokens⟩ := Parse.exists_quest hparser
  refine ⟨?_, (Parse.tree_eoserv htokens hstream).1, ?_, Parse.names_eoserv htree htokens hstream,
    Parse.states_eoserv htree htokens hstream, fun casings => analyze_eoserv hstream⟩
  · rw [hstream]
    exact hlexer
  · rw [Analysis.identifiers_ofSource, hstream]

/-- An official quest with a name that begins like a word that only EOSERV reserves. -/
def sampleQuest : String := "main \x7b\x7d state iffy \x7b rule Always() goto iffy \x7d"

/-- The official quest is one of EOSERV as well, and has no diagnostic in either language. -/
theorem eoserv_extends_official_sample :
    (parse .official sampleQuest).errors = [] ∧ analyze .official sampleQuest [] = [] ∧
    (parse .eoserv sampleQuest).errors = [] ∧ analyze .eoserv sampleQuest [] = [] := by
  have hparser : (parse .official sampleQuest).errors = [] := by decide +kernel
  have hclean : analyze .official sampleQuest [] = [] := by decide +kernel
  obtain ⟨-, herrors, -, -, -, hanalyze⟩ :=
    eoserv_extends_official sampleQuest (by decide +kernel) hparser (by decide +kernel)
  exact ⟨hparser, hclean, herrors, hanalyze [] hclean⟩

end QuestScript
