import QuestScript.Token.Keyword

/-! # Kinds of tokens

The vocabulary of the language. The parser sees the kinds down to identifiers; blanks, comments and
text that no rule of the lexer matches are *hidden*: they stay in the document, but the grammar does
not know of them. -/

namespace QuestScript

/-- What a token is. -/
inductive TokenKind
  | keyword (k : Keyword)
  | leftParen | rightParen | leftBrace | rightBrace | comma | semicolon
  | integer | string | identifier
  | whitespace | lineComment | blockComment
  /-- The end of the document, present in the token stream only. -/
  | endOfInput
  /-- Text that no rule of the lexer matches. -/
  | unknown
deriving DecidableEq, Repr

namespace TokenKind

/-- The kinds that the lexer knows how to recognize, in vocabulary order. -/
def recognized : List TokenKind :=
  Keyword.all.map keyword ++
    [leftParen, rightParen, leftBrace, rightBrace, comma, semicolon, integer, string, identifier,
      whitespace, lineComment, blockComment]

/-- The kinds that a syntax error may expect: the recognized ones and the end of the document. -/
def vocabulary : List TokenKind := recognized ++ [endOfInput]

/-- Blanks and comments. -/
def isTrivia : TokenKind → Bool
  | whitespace | lineComment | blockComment => true
  | _ => false

/-- The grammar passes over the token: trivia and unknown text. -/
def isHidden (k : TokenKind) : Bool := k.isTrivia || k == unknown

/-- A reserved word. -/
def isKeyword : TokenKind → Bool
  | keyword _ => true
  | _ => false

/-- A reserved word or a name. -/
def isWord : TokenKind → Bool
  | keyword _ | identifier => true
  | _ => false

/-- The name of the kind. -/
def name : TokenKind → String
  | keyword k => k.capitals ++ "_KW"
  | leftParen => "L_PAREN"
  | rightParen => "R_PAREN"
  | leftBrace => "L_BRACE"
  | rightBrace => "R_BRACE"
  | comma => "COMMA"
  | semicolon => "SEMICOLON"
  | integer => "INTEGER"
  | string => "STRING"
  | identifier => "IDENT"
  | whitespace => "WHITESPACE"
  | lineComment => "LINE_COMMENT"
  | blockComment => "BLOCK_COMMENT"
  | endOfInput => "EOF"
  | unknown => "ERROR"

/-- The name under which the vocabulary declares the kind; that of a word recognized in any letter
case ends in an underscore. -/
def symbolicName? : TokenKind → Option String
  | keyword k => some (k.capitals ++ "_")
  | leftParen => some "LPAREN"
  | rightParen => some "RPAREN"
  | leftBrace => some "LBRACE"
  | rightBrace => some "RBRACE"
  | comma => some "COMMA"
  | semicolon => some "SEMI"
  | integer => some "IntegerLiteral"
  | string => some "StringLiteral"
  | identifier => some "Identifier"
  | whitespace => some "WS"
  | lineComment => some "LINE_COMMENT"
  | blockComment => some "BLOCK_COMMENT"
  | endOfInput => some "EOF"
  | unknown => none

/-- The quoted text of a token that is always written the same way. -/
def literalName? : TokenKind → Option String
  | leftParen => some "'('"
  | rightParen => some "')'"
  | leftBrace => some "'\x7b'"
  | rightBrace => some "'\x7d'"
  | comma => some "','"
  | semicolon => some "';'"
  | endOfInput => some "<EOF>"
  | _ => none

/-- The literal name where there is one, else the symbolic name. -/
def displayName? (k : TokenKind) : Option String :=
  k.literalName?.or k.symbolicName?

/-- The given kinds without repetition, in vocabulary order. -/
def sorted (kinds : List TokenKind) : List TokenKind :=
  vocabulary.filter kinds.contains

theorem mem_sorted {kinds : List TokenKind} {k : TokenKind} :
    k ∈ sorted kinds ↔ k ∈ vocabulary ∧ k ∈ kinds := by
  simp [sorted]

end TokenKind

end QuestScript
