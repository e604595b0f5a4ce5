import QuestScript.Proofs.Token.Place
import QuestScript.Proofs.Token.Whole

/-! # Words that only EOSERV reserves

The two flavors differ for the lexer in the four conditional keywords alone. A document in which no
word is one of them has the same token stream in both (`ofSource_eoserv`). -/

namespace QuestScript

namespace Keyword

/-- The words that an official quest may use as names. -/
def conditionals : List Keyword := [goal, ifThen, elseIf, otherwise]

theorem isReservedIn_official {k : Keyword} (h : k ∉ conditionals) :
    k.isReservedIn .official = true := by
  cases k <;> first | rfl | exact absurd (by decide) h

/-- The word is none of those that only EOSERV reserves, in any ASCII letter case. -/
def IsCommon (word : List Char) : Prop :=
  ∀ k ∈ conditionals, Ascii.sameWord k.spelling.toList word = false

theorem ofWord?_eoserv {word : List Char} (h : IsCommon word) :
    ofWord? .eoserv word = ofWord? .official word := by
  refine congrArg (fun p => all.find? p) (funext fun k => ?_)
  by_cases hk : k ∈ conditionals
  · rw [h k hk, Bool.and_false, Bool.and_false]
  · rw [isReservedIn_official hk]
    rfl

end Keyword

namespace Lexeme

theorem wordKind_eoserv {word : List Char} (h : Keyword.IsCommon word) :
    wordKind .eoserv word = wordKind .official word := by
  rw [wordKind, Keyword.ofWord?_eoserv h, wordKind]

/-- Only words are read differently. -/
theorem reach_flavor {c : Char} (h : ¬ startsWord c = true) (flavor other : Flavor)
    (text : List Char) : reach flavor c text = reach other c text := by
  simp only [reach, if_neg h]

theorem reach_eoserv {c : Char} {text : List Char} {kind : TokenKind} {n : Nat}
    (hreach : reach .official c text = (kind, n))
    (h : kind.isWord = true → Keyword.IsCommon (c :: text.take n)) :
    reach .eoserv c text = (kind, n) := by
  by_cases hc : startsWord c = true
  · rw [reach_of_startsWord hc] at hreach ⊢
    obtain ⟨rfl, rfl⟩ := Prod.mk.inj hreach
    rw [wordKind_eoserv (h (isWord_wordKind .official _))]
  · rw [reach_flavor hc .eoserv .official, hreach]

theorem ofText_eoserv {text : List Char}
    (h : ∀ l ∈ ofText .official text, l.kind.isWord = true → Keyword.IsCommon l.text) :
    ofText .eoserv text = ofText .official text := by
  fun_induction ofText .official text with
  | case1 => rw [ofText]
  | case2 c text kind n hreach ih =>
    rw [List.forall_mem_cons] at h
    rw [ofText, reach_eoserv hreach h.1]
    simp only [ih h.2]

end Lexeme

/-- **A document without the words that only EOSERV reserves has one token stream.** -/
theorem TokenStream.ofSource_eoserv {source : String}
    (h : ∀ t ∈ (ofSource .official source).tokens, t.kind.isWord = true →
      Keyword.IsCommon t.text.toList) :
    ofSource .eoserv source = ofSource .official source := by
  rw [ofSource, ofSource, Lexeme.ofText_eoserv]
  intro l hl hword
  have hlexemes : (ofSource .official source).document.map Token.lexeme =
      Lexeme.ofText .official source.toList := by
    rw [document_ofSource, map_placed]
  rw [← hlexemes] at hl
  obtain ⟨t, ht, rfl⟩ := List.mem_map.mp hl
  exact h t (mem_tokens_of_mem_document ht) hword

end QuestScript
