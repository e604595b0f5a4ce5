import QuestScript.Text.Position
import QuestScript.Token.Kind

/-! # Tokens

A token knows its text and where it stands in the document: the byte offset of its first character,
its line and column, and its index among all tokens of the document. -/

namespace QuestScript

/-- Number of bytes of a text in UTF-8. -/
def byteLength : List Char → Nat
  | [] => 0
  | c :: text => c.utf8Size + byteLength text

@[simp] theorem byteLength_nil : byteLength [] = 0 := rfl

@[simp] theorem byteLength_cons (c : Char) (text : List Char) :
    byteLength (c :: text) = c.utf8Size + byteLength text := rfl

@[simp] theorem byteLength_append (s t : List Char) :
    byteLength (s ++ t) = byteLength s + byteLength t := by
  induction s with
  | nil => simp
  | cons c s ih => rw [List.cons_append, byteLength_cons, ih, byteLength_cons, Nat.add_assoc]

/-- A piece of the document. -/
structure Token where
  /-- What the token is. -/
  kind : TokenKind
  /-- Its characters. -/
  text : String
  /-- Number of bytes before it. -/
  offset : Nat
  /-- Its line, counted from one. -/
  line : Nat
  /-- Number of characters before it on its line. -/
  column : Nat
  /-- Number of tokens before it. -/
  index : Nat
deriving DecidableEq, Repr

namespace Token

/-- The grammar passes over the token. -/
def isHidden (t : Token) : Bool := t.kind.isHidden

/-- The grammar sees the token. -/
def isSignificant (t : Token) : Bool := !t.isHidden

/-- The token marks the end of the document. -/
def isEnd (t : Token) : Bool := t.kind == .endOfInput

/-- Number of characters of the token. -/
def charLength (t : Token) : Nat := t.text.toList.length

/-- The byte offset just past the token. -/
def endOffset (t : Token) : Nat := t.offset + byteLength t.text.toList

/-- The token's span. It is taken to end on the line on which it starts. -/
def span (t : Token) : Span :=
  ⟨⟨t.line - 1, t.column⟩, ⟨t.line - 1, t.column + t.charLength⟩⟩

end Token

end QuestScript
