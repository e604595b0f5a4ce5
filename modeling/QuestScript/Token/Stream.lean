import QuestScript.Token.Basic
import QuestScript.Token.Lexeme

/-! # Token streams

All tokens of a document in order, hidden ones included, closed by a token that marks the end. Each
token is given its place by walking a cursor over the lexemes. -/

namespace QuestScript

/-- A place in the document, as tokens record it. -/
structure Cursor where
  /-- Number of bytes passed. -/
  offset : Nat
  /-- The line, counted from one. -/
  line : Nat
  /-- Number of characters passed on the line. -/
  column : Nat
deriving DecidableEq, Repr

namespace Cursor

/-- The start of a document. -/
def start : Cursor := ⟨0, 1, 0⟩

/-- The place after one character. -/
def step (p : Cursor) (c : Char) : Cursor :=
  if c = '\n' then ⟨p.offset + c.utf8Size, p.line + 1, 0⟩
  else ⟨p.offset + c.utf8Size, p.line, p.column + 1⟩

/-- The place after a text. -/
def advance (p : Cursor) (text : List Char) : Cursor := text.foldl step p

end Cursor

/-- The tokens of one document. -/
structure TokenStream where
  /-- The tokens in order; the last one marks the end of the document. -/
  tokens : List Token
deriving DecidableEq, Repr

namespace TokenStream

/-- The text that stands for the end of the document. -/
def endText : String := "<EOF>"

/-- The tokens of the lexemes that follow a place of the document, where `index` tokens stand
before it. -/
def place (p : Cursor) (index : Nat) : List Lexeme → List Token
  | [] => [⟨.endOfInput, endText, p.offset, p.line, p.column, index⟩]
  | l :: ls =>
    ⟨l.kind, String.ofList l.text, p.offset, p.line, p.column, index⟩ ::
      place (p.advance l.text) (index + 1) ls

/-- The token stream of a document. -/
def ofSource (flavor : Flavor) (source : String) : TokenStream :=
  ⟨place .start 0 (Lexeme.ofText flavor source.toList)⟩

/-- Number of tokens, the end included. -/
def length (s : TokenStream) : Nat := s.tokens.length

/-- The token at an index. -/
def get? (s : TokenStream) (index : Nat) : Option Token := s.tokens[index]?

/-- The tokens that make up the document. -/
def document (s : TokenStream) : List Token := s.tokens.filter (!·.isEnd)

/-- The tokens that the grammar sees. -/
def significant (s : TokenStream) : List Token := s.document.filter (·.isSignificant)

/-- The pieces of unknown text. -/
def unknown (s : TokenStream) : List Token := s.tokens.filter (·.kind == .unknown)

/-- The first token that the grammar sees. -/
def firstMeaningful? (s : TokenStream) : Option Token := s.significant.head?

/-- The last token before `index` that is not hidden. -/
def previousSignificant? (s : TokenStream) (index : Nat) : Option Token :=
  (s.tokens.take index).reverse.find? (·.isSignificant)

/-- The index of the token that starts at a byte offset. -/
def indexAtOffset? (s : TokenStream) (offset : Nat) : Option Nat :=
  s.tokens.findIdx? (·.offset == offset)

/-- The token that starts at a byte offset. -/
def atOffset? (s : TokenStream) (offset : Nat) : Option Token :=
  (s.indexAtOffset? offset).bind s.get?

end TokenStream

end QuestScript
