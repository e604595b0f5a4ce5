import Mathlib.Data.List.Find
import QuestScript.Proofs.Grammar.Robust
import QuestScript.Proofs.Layout.Document
import QuestScript.Proofs.Reference

/-! # References and the kinds of tokens

Of all that tells what a name refers to, only the `goto` before the name of a state is looked for in
the text. But `goto` is a keyword in every flavor, and what stands before such a name is a token, a
skipped token or a list of arguments, so the kind of its first token tells whether it is that word
(`Lexeme.sameWord_goto`). What names refer to thus depends on the kinds of tokens only
(`classify_keepsKind`). -/

namespace QuestScript

open Lexeme

/-! ### The word `goto` -/

namespace Lexeme
variable {flavor : Flavor} {l : Lexeme} {tail : List Char}

theorem IsWhole.isWord_of_sameWord (h : IsWhole flavor l) {word : List Char} (hword : IsWordText word)
    (hsame : Ascii.sameWord (l.text ++ tail) word = true) : l.kind.isWord = true := by
  obtain ⟨c, rest, htext, hreach⟩ := h
  obtain ⟨d, others, rfl, hd, -⟩ := hword
  rw [htext, Ascii.sameWord_iff, List.cons_append, List.map_cons, List.map_cons] at hsame
  have hc : startsWord c = true := by
    rw [← startsWord_toLower, (List.cons.inj hsame).1, startsWord_toLower, hd]
  rw [reach_of_startsWord hc] at hreach
  obtain ⟨hkind, -⟩ := Prod.mk.inj hreach
  rw [← hkind]
  exact isWord_wordKind flavor _

/-- **A lexeme is the word `goto` if it is the keyword.** -/
theorem IsWhole.sameWord_goto (h : IsWhole flavor l) :
    Ascii.sameWord l.text "goto".toList = (l.kind == .keyword .goto) := by
  have hgoto : wordKind flavor "goto".toList = .keyword .goto := by
    cases flavor <;> decide
  rw [Bool.eq_iff_iff, beq_iff_eq]
  constructor
  · intro hsame
    have hword : l.kind.isWord = true :=
      h.isWord_of_sameWord (isWordText_spelling .goto) (by rwa [List.append_nil])
    rw [(h.isWordText hword).2, wordKind_congr flavor hsame, hgoto]
  · intro hk
    have hword := (h.isWordText (by rw [hk]; rfl)).2
    rw [hk] at hword
    rw [Ascii.sameWord_comm]
    exact (sameWord_of_wordKind hword.symm).2

end Lexeme

/-! ### What stands before the name of a state -/

/-- A token, a skipped token or a list of arguments. -/
def Kind.isFlat : Kind → Bool
  | .token _ => true
  | .node n => n == .error || n == .argumentList

theorem Tree.IsTolerated.exists_leftParen {flavor : Flavor} {u : Tree} (h : u.IsTolerated flavor)
    (hlist : u.isNode .argumentList = true) : ∃ t ts, u.leaves = t :: ts ∧ t.kind = .leftParen := by
  cases h with
  | token t => cases hlist
  | skipped t => cases hlist
  | @node n cs hcs _ =>
    obtain rfl : n = .argumentList := by simpa [isNode, kind] using hlist
    obtain ⟨v, hv, w, -, hcs⟩ := Rhs.mem_sequence_cons.mp hcs
    rw [Rhs.mem_token.mp hv] at hcs
    obtain ⟨c, cs, rfl, hc, -⟩ := List.map_eq_cons_iff.mp hcs
    cases c with
    | token t => exact ⟨t, leavesOf cs, by simp, Kind.token.inj hc⟩
    | node n cs => cases hc

/-- A token, a skipped token or a list of arguments has one token, or starts with a parenthesis. -/
theorem Tree.IsTolerated.exists_leaf {flavor : Flavor} {u : Tree} (h : u.IsTolerated flavor)
    (hflat : u.kind.isFlat = true) :
    ∃ t ts, u.leaves = t :: ts ∧ (ts = [] ∨ t.kind = .leftParen) := by
  cases h with
  | token t => exact ⟨t, [], rfl, .inl rfl⟩
  | skipped t => exact ⟨t, [], by simp, .inl rfl⟩
  | @node n cs hcs hall =>
    have hn : n = .error ∨ n = .argumentList := by
      simpa [Kind.isFlat, Tree.kind] using hflat
    rcases hn with rfl | rfl
    · exact absurd hcs (Language.notMem_zero _)
    · obtain ⟨t, ts, hleaves, ht⟩ := (IsTolerated.node hcs hall).exists_leftParen rfl
      exact ⟨t, ts, hleaves, .inr ht⟩

namespace Parse
variable {flavor : Flavor} {source : String} {u : Tree}

/-- **The kind of its first token tells whether a text is the word `goto`.** -/
theorem sameWord_goto {t : Token} {ts : List Token} (hleaves : u.leaves = t :: ts)
    (hflat : ts = [] ∨ t.kind = .leftParen)
    (hmem : ∀ v ∈ u.leaves, v ∈ (parse flavor source).stream.significant) :
    Ascii.sameWord u.text.toList "goto".toList = (t.kind == .keyword .goto) := by
  have hwhole := TokenStream.isWhole_lexeme (hmem t (by simp [hleaves]))
  have htext : u.text.toList = t.lexeme.text ++ ts.flatMap (·.text.toList) := by
    have hall : u.significantTokens = u.leaves :=
      List.filter_eq_self.mpr fun v hv => (List.mem_filter.mp (hmem v hv)).2
    rw [Tree.text, hall, hleaves, String.toList_join, List.flatMap_map]
    rfl
  rw [htext]
  rcases hflat with rfl | hparen
  · rw [List.flatMap_nil, List.append_nil]
    exact hwhole.sameWord_goto
  · rw [hparen]
    refine Bool.eq_false_iff.mpr fun hsame => ?_
    have hword := hwhole.isWord_of_sameWord (isWordText_spelling .goto) hsame
    rw [Token.lexeme, hparen] at hword
    cases hword

theorem not_sameWord_goto (hu : u ∈ (parse flavor source).tree.subtrees)
    (hlist : u.isNode .argumentList = true) :
    Ascii.sameWord u.text.toList "goto".toList = false := by
  obtain ⟨t, ts, hleaves, ht⟩ := ((isTolerated_tree flavor source).subtrees u hu).exists_leftParen hlist
  have hmem : ∀ v ∈ u.leaves, v ∈ (parse flavor source).stream.significant := fun v hv =>
    (leaves_sublist_significant flavor source hu).subset hv
  rw [sameWord_goto hleaves (.inr ht) hmem, ht]
  rfl

end Parse

/-! ### References -/

/-- Only `goto` is looked for in the text, and only behind a token, a skipped token or a list of
arguments. -/
theorem Shape.eq_goto_of_after {flavor : Flavor} {s : Shape} (hs : s ∈ ofFlavor flavor) {word : String}
    (hword : s.after = some word) : word = "goto" ∧ ∃ n slot, s.anchor = .child n slot ∧
      n ≠ .error ∧ ∀ x ∈ (tolerant flavor n).symbols, x.isFlat = true := by
  have hrule : ∀ x ∈ (tolerant .official .rule).symbols, x.isFlat = true := by decide
  have hgoto : ∀ x ∈ (tolerant .eoserv .gotoExpression).symbols, x.isFlat = true := by decide
  cases flavor with
  | official =>
    simp only [ofFlavor, official, List.mem_cons, List.not_mem_nil, or_false] at hs
    rcases hs with rfl | rfl | rfl <;> cases hword
    exact ⟨rfl, _, _, rfl, by simp, hrule⟩
  | eoserv =>
    simp only [ofFlavor, eoserv, List.mem_cons, List.not_mem_nil, or_false] at hs
    rcases hs with rfl | rfl | rfl | rfl <;> cases hword
    exact ⟨rfl, _, _, rfl, by simp, hgoto⟩

section Classify
variable {flavor : Flavor} {source other : String} {f : Token → Token} (hf : Token.KeepsKind f)
  (htokens : (parse flavor other).stream.significant = (parse flavor source).stream.significant.map f)
include hf htokens

theorem Parse.sameWord_move {u : Tree} (hu : u ∈ (parse flavor source).tree.subtrees)
    (hflat : u.kind.isFlat = true) : Ascii.sameWord (u.move f).text.toList "goto".toList =
      Ascii.sameWord u.text.toList "goto".toList := by
  obtain ⟨t, ts, hleaves, hfirst⟩ := ((isTolerated_tree flavor source).subtrees u hu).exists_leaf hflat
  have hmem : ∀ v ∈ u.leaves, v ∈ (parse flavor source).stream.significant := fun v hv =>
    (leaves_sublist_significant flavor source hu).subset hv
  have hleaves' : (u.move f).leaves = f t :: ts.map f := by
    rw [Tree.leaves_move, hleaves, List.map_cons]
  have hfirst' : ts.map f = [] ∨ (f t).kind = .leftParen := by
    rw [hf.kind]
    exact hfirst.imp_left fun hnil => by rw [hnil, List.map_nil]
  have hmem' : ∀ v ∈ (u.move f).leaves, v ∈ (parse flavor other).stream.significant := by
    rw [Tree.leaves_move, htokens]
    exact fun v hv => List.map_subset f hmem hv
  rw [sameWord_goto hleaves hfirst hmem, sameWord_goto hleaves' hfirst' hmem', hf.kind]

variable {p : Place} (hp : p ∈ (Place.root (parse flavor source).tree).descendants)
include hp

theorem Shape.holds_keepsKind {s : Shape} (hs : s ∈ ofFlavor flavor) :
    s.holds (p.move f) = s.holds p := by
  rw [holds, holds, (Place.isHom_move hf).holds_anchor]
  cases hanchor : s.anchor.holds p with
  | false => rfl
  | true =>
    cases hafter : s.after with
    | none => rfl
    | some word =>
      obtain ⟨rfl, n, slot, hchild, herror, hflat⟩ := eq_goto_of_after hs hafter
      rw [Option.all_some, Option.all_some, follows, follows, Place.previous?_move hf, Option.any_map]
      cases hu : p.previous? with
      | none => rfl
      | some u =>
        have hin := Place.isIn_of_mem_descendants hp
        have hparent : p.parentKind? = some n := by
          rw [hchild, Anchor.holds, Bool.and_eq_true, beq_iff_eq] at hanchor
          exact hanchor.1
        have hspells := (Parse.spells_of_mem flavor source rfl List.mem_cons_self).1
        have hkind := hflat _ (Place.kind_previous?_mem hspells hin hparent herror hu)
        exact congrArg (true && ·) (Parse.sameWord_move hf htokens (hin.previous? hu) hkind)

/-- **What a name refers to depends on the kinds of the tokens only.** -/
theorem classify_keepsKind : classify flavor (p.move f) = classify flavor p := by
  rw [classify, classify, List.find?_congr fun s hs => Shape.holds_keepsKind hf htokens hp hs]

end Classify

end QuestScript
