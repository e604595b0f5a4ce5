import QuestScript.Proofs.Check.Map
import QuestScript.Proofs.Fix.Improve
import QuestScript.Proofs.Rename.Text

/-! # Words of the same length

A word may give way to a word of its kind and length (`Token.Fits`). Then all tokens stay where they are
(`TokenStream.document_respelled`), and a clean document stays the same quest but for one word
(`Parse.Reads.respelled`), with the same symbols if the word names no state (`sameSymbols_respelled`). The
name of a symbol is as long as every name that finds the symbol (`length_eq_of_sameName`). -/

namespace QuestScript

open Ast Lexeme

/-! ### Words of the same length -/

theorem Cursor.advance_word (p : Cursor) {text : List Char} (h : IsAscii text) (hline : '\n' ∉ text) :
    p.advance text = ⟨p.offset + text.length, p.line, p.column + text.length⟩ := by
  induction text generalizing p with
  | nil => rfl
  | cons c text ih =>
    rw [isAscii_cons] at h
    rw [List.mem_cons, not_or] at hline
    have hsize : c.utf8Size = 1 := by
      rw [Char.utf8Size_eq_one_iff, UInt32.le_iff_toNat_le]
      have hc : c.val.toNat < 0x80 := h.1
      have hbound : (127 : UInt32).toNat = 127 := rfl
      omega
    rw [advance_cons, ih _ h.2 hline.2, step, if_neg (Ne.symm hline.1), hsize, List.length_cons]
    simp only [mk.injEq, true_and]
    omega

/-- The token with another text if it is the target. -/
def Token.respelled (target : Token) (text : String) (t : Token) : Token :=
  if t = target then { t with text := text } else t

/-- The name is a word of the token's kind, and as long as its text. -/
structure Token.Fits (flavor : Flavor) (t : Token) (name : String) : Prop where
  isWord : t.kind.isWord = true
  isWordText : IsWordText t.text.toList
  isWordText_name : IsWordText name.toList
  kind : wordKind flavor name.toList = t.kind
  length : name.toList.length = t.text.toList.length

namespace Token
variable {flavor : Flavor} {target t : Token} {name : String}

@[simp] theorem respelled_self (target : Token) (name : String) :
    respelled target name target = { target with text := name } := if_pos rfl

theorem respelled_of_ne (h : t ≠ target) (name : String) : respelled target name t = t := if_neg h

theorem kind_respelled (target t : Token) (name : String) : (respelled target name t).kind = t.kind := by
  rw [respelled]
  split <;> rfl

theorem index_respelled (target t : Token) (name : String) :
    (respelled target name t).index = t.index := by
  rw [respelled]
  split <;> rfl

theorem column_respelled (target t : Token) (name : String) :
    (respelled target name t).column = t.column := by
  rw [respelled]
  split <;> rfl

theorem span_respelled (h : target.Fits flavor name) (t : Token) :
    (respelled target name t).span = t.span := by
  rw [respelled]
  split
  · rename_i heq
    rw [span, charLength, span, charLength, heq, h.length]
  · rfl

theorem isSignificant_respelled (target t : Token) (name : String) :
    (respelled target name t).isSignificant = t.isSignificant := by
  rw [isSignificant, isHidden, kind_respelled, isSignificant, isHidden]

theorem Fits.newline_notMem (h : target.Fits flavor name) :
    '\n' ∉ target.text.toList ∧ '\n' ∉ name.toList := by
  have hword : ∀ w : List Char, IsWordText w → '\n' ∉ w := by
    rintro _ ⟨c, rest, rfl, hc, hrest⟩ hmem
    rcases List.mem_cons.mp hmem with rfl | hmem
    · exact absurd hc (by decide)
    · exact absurd (hrest _ hmem) (by decide)
  exact ⟨hword _ h.isWordText, hword _ h.isWordText_name⟩

end Token

namespace TokenStream
variable {flavor : Flavor} {source name : String} {target : Token}

theorem placed_respell (h : target.Fits flavor name) (p : Cursor) (index : Nat) (ls : List Lexeme) :
    placed p index ((placed p index ls).map (respell [target] name)) =
      (placed p index ls).map (Token.respelled target name) := by
  obtain ⟨hline, hnameLine⟩ := h.newline_notMem
  induction ls generalizing p index with
  | nil => rfl
  | cons l ls ih =>
    rw [placed, List.map_cons, placed, List.map_cons]
    generalize ht : (⟨l.kind, String.ofList l.text, p.offset, p.line, p.column, index⟩ : Token) = t
    have hplace : (⟨t.kind, t.text, p.offset, p.line, p.column, index⟩ : Token) = t := by
      rw [← ht]
    have htext : l.text = t.text.toList := by rw [← ht, String.toList_ofList]
    by_cases heq : t = target
    · have hadvance : p.advance name.toList = p.advance l.text := by
        rw [htext, heq, Cursor.advance_word p h.isWordText.isAscii hline,
          Cursor.advance_word p h.isWordText_name.isAscii hnameLine, h.length]
      rw [respell, if_pos (List.mem_singleton.mpr heq), String.ofList_toList, hadvance, ih,
        Token.respelled, if_pos heq]
      refine congrArg (· :: _) ?_
      rw [← ht]
    · rw [respell, if_neg (by simpa using heq), Token.lexeme, String.ofList_toList, hplace, ← htext, ih,
        Token.respelled_of_ne heq]

/-- **A word gives way to a word of its kind and length**: all tokens stay what and where they are but
for the text of that one, and no text gets unknown. -/
theorem document_respelled (hknown : (ofSource flavor source).unknown = [])
    (htarget : target ∈ (ofSource flavor source).document) (h : target.Fits flavor name) :
    (ofSource flavor (TextEdit.applyAll source [⟨target.span, name⟩])).document =
        (ofSource flavor source).document.map (Token.respelled target name) ∧
      (ofSource flavor (TextEdit.applyAll source [⟨target.span, name⟩])).unknown = [] := by
  have hknown := known_of_unknown_eq_nil hknown
  have htext : (TextEdit.applyAll source ([target].map fun t => ⟨t.span, name⟩)).toList =
      chars ((ofSource flavor source).document.map (respell [target] name)) :=
    toList_applyAll_names (List.singleton_sublist.mpr htarget)
      (List.forall_mem_singleton.mpr h.newline_notMem.1)
  rw [List.map_singleton] at htext
  have hrespells : List.Forall₂ (Respells flavor) (ofText flavor source.toList)
      ((ofSource flavor source).document.map (respell [target] name)) := by
    rw [← map_placed .start 0 (ofText flavor source.toList), ← document_ofSource,
      List.forall₂_map_left_iff, List.forall₂_map_right_iff, List.forall₂_same]
    intro t _
    rw [respell]
    split
    · rename_i hmem
      obtain rfl := List.mem_singleton.mp hmem
      have hwhole : IsWhole flavor _ := isWhole_word h.isWordText_name
      rw [h.kind] at hwhole
      exact .inr ⟨h.isWord, rfl, hwhole⟩
    · exact .inl rfl
  have hlexemes := ofText_respelled hknown hrespells
  rw [← htext] at hlexemes
  have hdocument : (ofSource flavor (TextEdit.applyAll source [⟨target.span, name⟩])).document =
      (ofSource flavor source).document.map (Token.respelled target name) := by
    rw [document_ofSource, hlexemes, document_ofSource, placed_respell h]
  refine ⟨hdocument, ?_⟩
  rw [unknown, tokens_eq_document_append, hdocument, List.filter_append, List.append_eq_nil_iff]
  refine ⟨List.filter_eq_nil_iff.mpr fun t ht => ?_, rfl⟩
  obtain ⟨u, hu, rfl⟩ := List.mem_map.mp ht
  rw [document_ofSource] at hu
  have hkind : u.kind ≠ .unknown := hknown _ (lexeme_of_mem_placed hu)
  rw [Token.kind_respelled]
  simpa using hkind

end TokenStream

/-! ### Names -/

theorem length_eq_of_sameWord {v w : List Char} (h : Ascii.sameWord v w = true) :
    v.length = w.length := by
  have hlength := congrArg List.length (Ascii.sameWord_iff.mp h)
  rwa [List.length_map, List.length_map] at hlength

theorem length_eq_of_sameName {kind : SymbolKind} {a b : String} (ha : IsAscii a.toList)
    (hb : IsAscii b.toList) (h : sameName kind a b = true) : a.toList.length = b.toList.length := by
  refine length_eq_of_sameWord ?_
  by_cases hkind : kind = .state
  · rw [hkind, sameName, beq_iff_eq] at h
    exact (lowercase_eq_iff ha hb).mp h
  · have hmatch : namesMatch a b = true := by
      cases kind with
      | state => exact absurd rfl hkind
      | _ => exact h
    rwa [namesMatch_eq_sameWord ha hb] at hmatch

namespace Catalog
variable {c : Catalog} {kind : SymbolKind} {name : String} {s : Symbol}

theorem sameName_of_lookup (h : c.lookup? kind name = some s) : sameName kind s.name name = true := by
  cases kind with
  | state =>
    obtain ⟨x, hx, rfl⟩ := Option.map_eq_some_iff.mp h
    exact (List.mem_filter.mp (List.mem_of_head? hx)).2
  | _ =>
    obtain ⟨b, hb, rfl⟩ := Option.map_eq_some_iff.mp h
    have hmatch := List.find?_some hb
    exact hmatch

theorem lookup?_name (h : c.lookup? kind name = some s) : c.lookup? kind s.name = some s := by
  have hsame := sameName_of_lookup h
  rw [← h]
  cases kind with
  | state =>
    have hname : lowercase s.name = lowercase name := beq_iff_eq.mp hsame
    rw [lookup?, statesNamed, hname]
    rfl
  | _ =>
    have hmatch : (fun b : Builtin => namesMatch b.name s.name) = fun b => namesMatch b.name name :=
      funext fun b => by rw [namesMatch_comm, namesMatch_congr hsame, namesMatch_comm]
    rw [lookup?, hmatch]
    rfl

end Catalog

/-! ### Quests -/

namespace Ast
variable {flavor : Flavor}

/-- The word with another text if it is the target. -/
def Word.respelled (target : Token) (name : String) (k : TokenKind) (w : Word k) : Word k :=
  ⟨Token.respelled target name w.1, (Token.kind_respelled target w.1 name).trans w.2⟩

theorem keepsPlaces_respelled {target : Token} {name : String} (h : target.Fits flavor name) :
    KeepsPlaces (Word.respelled target name) :=
  fun _ w => Token.span_respelled h w.1

theorem Quest.tokens_respelled (q : Quest Word flavor) (target : Token) (name : String) :
    (q.map (Word.respelled target name)).tokens = q.tokens.map (Token.respelled target name) := by
  rw [tokens, q.leaves_map, tokens, List.map_map, List.map_map]
  rfl

end Ast

section Documents
variable {flavor : Flavor} {source name : String} {casings : List String} {q : Quest Word flavor}
  {target : Token}

/-- **The document stays the same quest** but for the word. -/
theorem Parse.Reads.respelled (h : Parse.Reads flavor source q) (htarget : target ∈ q.tokens)
    (hfits : target.Fits flavor name) :
    Parse.Reads flavor (TextEdit.applyAll source [⟨target.span, name⟩])
      (q.map (Word.respelled target name)) := by
  have hmem : target ∈ (TokenStream.ofSource flavor source).document := by
    rw [← h.significant] at htarget
    exact (List.mem_filter.mp htarget).1
  obtain ⟨hdocument, hknown⟩ := TokenStream.document_respelled h.known hmem hfits
  have hsignificant : ((·.isSignificant) ∘ Token.respelled target name) = (·.isSignificant) :=
    funext fun t => Token.isSignificant_respelled target t name
  refine ⟨hknown, ?_⟩
  rw [TokenStream.significant, hdocument, List.filter_map, hsignificant, q.tokens_respelled,
    ← h.significant]
  rfl

section Respelled
variable (h : Parse.Reads flavor source q) (htarget : target ∈ q.tokens)
  (hfits : target.Fits flavor name)
include h htarget hfits

theorem sameSymbols_respelled (hstates : ∀ x ∈ q.states, x.name.1 ≠ target) :
    Checker.SameSymbols ((parse flavor source).checker casings)
      ((parse flavor (TextEdit.applyAll source [⟨target.span, name⟩])).checker casings) where
  casings := rfl
  flavor := rfl
  declarations := by
    rw [((h.respelled htarget hfits).isFor casings).declarations, (h.isFor casings).declarations,
      q.states_map, List.map_map]
    exact List.map_congr_left fun x hx => Token.respelled_of_ne (hstates x hx) name

/-- The indentation of the first token stays, as what is before it is hidden. -/
theorem indentBefore_respelled {t : Token} {ts : List Token} (ht : q.tokens = t :: ts) :
    ((parse flavor (TextEdit.applyAll source [⟨target.span, name⟩])).checker casings).indentBefore
        (Token.respelled target name t) =
      ((parse flavor source).checker casings).indentBefore t := by
  have hmem : target ∈ (TokenStream.ofSource flavor source).significant := h.significant ▸ htarget
  obtain ⟨hdocument, -⟩ :=
    TokenStream.document_respelled h.known (List.mem_filter.mp hmem).1 hfits
  obtain ⟨hidden, after, hcut, hhidden, -, -⟩ :=
    List.filter_eq_cons_iff.mp (h.significant.trans ht)
  have hindex : t.index = hidden.length := by
    rw [TokenStream.document_ofSource] at hcut
    exact TokenStream.index_eq hcut
  have hstay : hidden.map (Token.respelled target name) = hidden := by
    refine (List.map_congr_left fun u hu => Token.respelled_of_ne ?_ name).trans (List.map_id hidden)
    rintro rfl
    exact hhidden u hu (List.mem_filter.mp hmem).2
  have hold : (TokenStream.ofSource flavor source).tokens.take t.index = hidden := by
    rw [TokenStream.tokens_eq_document_append, hcut, List.append_assoc, hindex, List.take_left]
  have hnew : (TokenStream.ofSource flavor
      (TextEdit.applyAll source [⟨target.span, name⟩])).tokens.take
        (Token.respelled target name t).index = hidden := by
    rw [TokenStream.tokens_eq_document_append, hdocument, hcut, List.map_append, hstay,
      List.append_assoc, Token.index_respelled, hindex, List.take_left]
  unfold Checker.indentBefore
  rw [Token.column_respelled]
  change min (((TokenStream.ofSource _ _).tokens.take _).flatMap _ |>.reverse.takeWhile _).length _ =
    min (((TokenStream.ofSource _ _).tokens.take _).flatMap _ |>.reverse.takeWhile _).length _
  rw [hold, hnew]

theorem checkMainExists_respelled (hmains : q.mains = []) :
    ((parse flavor (TextEdit.applyAll source [⟨target.span, name⟩])).checker
        casings).checkMainExists.findings =
      ((parse flavor source).checker casings).checkMainExists.findings := by
  have hmains' : (q.map (Word.respelled target name)).mains = [] := by
    rw [q.mains_map, hmains]
    rfl
  rcases Checker.checkMainExists_eq (h.isFor casings) hmains with
    ⟨htokens, hfound⟩ | ⟨t, ts, htokens, -, hfound⟩
  · rw [htokens] at htarget
    cases htarget
  · rcases Checker.checkMainExists_eq ((h.respelled htarget hfits).isFor casings) hmains' with
      ⟨htokens', -⟩ | ⟨t', ts', htokens', -, hfound'⟩
    · rw [q.tokens_respelled, htokens] at htokens'
      cases htokens'
    · rw [q.tokens_respelled, htokens, List.map_cons] at htokens'
      obtain rfl := (List.cons.inj htokens').1
      rw [hfound, hfound', Checker.missingMainFinding, Token.span_respelled hfits,
        indentBefore_respelled h htarget hfits htokens, Checker.missingMainFinding]

end Respelled

end Documents

end QuestScript
