import QuestScript.Proofs.Ast.Tree
import QuestScript.Proofs.Token.Separate

/-! # Blocks that are put in

The empty blocks that fixes put into a document, and that their lexemes may stand before anything
(`separate_newState`, `separate_newMain`). -/

namespace QuestScript

open Ast Lexeme

/-! ### Putting lexemes together -/

section Layout
variable {flavor : Flavor} {ls : List Lexeme} {tail word blanks : List Char}

theorem separate_blank (hne : blanks ≠ []) (hblank : blanks.all isBlank = true)
    (h : Separate flavor ls tail) : Separate flavor (⟨.whitespace, blanks⟩ :: ls) tail :=
  ⟨⟨isWhole_blank hne (List.all_eq_true.mp hblank), by simp⟩, .inl rfl, h⟩

theorem wordKind_ne_unknown (flavor : Flavor) (word : List Char) :
    wordKind flavor word ≠ .unknown := by
  unfold wordKind
  split <;> simp

theorem separate_word (hword : IsWordText word)
    (hend : ∀ c ∈ (chars ls ++ tail).head?, isWordChar c = false) (h : Separate flavor ls tail) :
    Separate flavor (⟨wordKind flavor word, word⟩ :: ls) tail := by
  refine ⟨⟨isWhole_word hword, wordKind_ne_unknown flavor word⟩, .inr ?_, h⟩
  dsimp only
  unfold wordKind
  split
  · exact hend
  · exact hend

theorem separate_leftBrace (h : Separate flavor ls tail) :
    Separate flavor (⟨.leftBrace, ['\x7b']⟩ :: ls) tail :=
  ⟨⟨⟨'\x7b', [], rfl, rfl⟩, by simp⟩, .inr trivial, h⟩

theorem separate_rightBrace (h : Separate flavor ls tail) :
    Separate flavor (⟨.rightBrace, ['\x7d']⟩ :: ls) tail :=
  ⟨⟨⟨'\x7d', [], rfl, rfl⟩, by simp⟩, .inr trivial, h⟩

end Layout

/-! ### Empty blocks -/

/-- A word that stands in no document. -/
def Ast.Word.ofText (k : TokenKind) (text : String) : Word k := ⟨⟨k, text, 0, 0, 0, 0⟩, rfl⟩

/-- An empty main block. -/
def newMain : MainBlock Word :=
  ⟨.ofText _ "main", .ofText _ "\x7b", [], .ofText _ "\x7d"⟩

/-- An empty state. -/
def newState (flavor : Flavor) (name : String) : StateBlock Word flavor :=
  ⟨.ofText _ "state", .ofText _ name, .ofText _ "\x7b", [], .ofText _ "\x7d"⟩

/-- The lexemes of an empty block after its head. -/
def emptyBody : List Lexeme :=
  [⟨.whitespace, ['\n']⟩, ⟨.leftBrace, ['\x7b']⟩, ⟨.whitespace, ['\n', '\n']⟩,
    ⟨.rightBrace, ['\x7d']⟩]

/-- The lexemes of an empty main block in front of a document. -/
def mainLexemes : List Lexeme :=
  ⟨.keyword .main, "main".toList⟩ :: (emptyBody ++ [⟨.whitespace, ['\n', '\n']⟩])

/-- The lexemes of an empty state behind a block. -/
def stateLexemes (name : List Char) : List Lexeme :=
  [⟨.whitespace, ['\n', '\n']⟩, ⟨.keyword .state, "state".toList⟩, ⟨.whitespace, [' ']⟩,
    ⟨.identifier, name⟩] ++ emptyBody

section Separate
variable {flavor : Flavor} {ls : List Lexeme} {tail : List Char}

theorem separate_emptyBody (h : Separate flavor ls tail) :
    Separate flavor (emptyBody ++ ls) tail :=
  separate_blank (by simp) rfl
    (separate_leftBrace (separate_blank (by simp) rfl (separate_rightBrace h)))

theorem wordKind_main (flavor : Flavor) : wordKind flavor "main".toList = .keyword .main := by
  cases flavor <;> decide

theorem wordKind_state (flavor : Flavor) : wordKind flavor "state".toList = .keyword .state := by
  cases flavor <;> decide

theorem separate_newMain (flavor : Flavor) (tail : List Char) :
    Separate flavor mainLexemes tail := by
  have hbody : Separate flavor (emptyBody ++ [⟨.whitespace, ['\n', '\n']⟩]) tail :=
    separate_emptyBody (separate_blank (by simp) rfl trivial)
  rw [mainLexemes, ← wordKind_main flavor]
  refine separate_word (isWordText_spelling .main) ?_ hbody
  rintro c ⟨⟩
  decide

theorem separate_newState {name : List Char} (hname : IsWordText name)
    (hkind : wordKind flavor name = .identifier) (tail : List Char) :
    Separate flavor (stateLexemes name) tail := by
  have hbody : Separate flavor (emptyBody ++ []) tail := separate_emptyBody trivial
  rw [List.append_nil] at hbody
  have hidentifier : Separate flavor (⟨.identifier, name⟩ :: emptyBody) tail := by
    rw [← hkind]
    refine separate_word hname ?_ hbody
    rintro c ⟨⟩
    decide
  refine separate_blank (by simp) rfl ?_
  rw [← wordKind_state flavor]
  refine separate_word (isWordText_spelling .state) ?_ (separate_blank (by simp) rfl hidentifier)
  rintro c ⟨⟩
  decide

end Separate

theorem visible_stateLexemes (flavor : Flavor) (name : String) :
    visible (stateLexemes name.toList) =
      ((newState flavor name).leaves.map Leaf.token).map Token.lexeme := by
  simp [stateLexemes, emptyBody, visible, newState, StateBlock.leaves, Ast.Word.ofText, Token.lexeme,
    TokenKind.isTrivia]

theorem visible_mainLexemes :
    visible mainLexemes = (newMain.leaves.map Leaf.token).map Token.lexeme := by
  simp [mainLexemes, emptyBody, visible, newMain, MainBlock.leaves, Ast.Word.ofText, Token.lexeme,
    TokenKind.isTrivia]

theorem toList_newState (name : String) :
    (s!"\n\nstate {name}\n\x7b\n\n\x7d").toList = chars (stateLexemes name.toList) := by
  show ("\n\nstate " ++ name ++ "\n\x7b\n\n\x7d").toList = _
  rw [String.toList_append, String.toList_append]
  simp [stateLexemes, emptyBody]

theorem toList_newMain : "main\n\x7b\n\n\x7d\n\n".toList = chars mainLexemes := by
  simp [mainLexemes, emptyBody]

end QuestScript
