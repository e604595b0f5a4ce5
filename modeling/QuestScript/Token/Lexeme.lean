import QuestScript.Token.Kind

/-! # Lexemes

The lexer cuts a text into lexemes. At each point the first character decides what kind of lexeme
begins there, and `reach` tells how far it goes; a word is a keyword if the flavor reserves it.
Nothing is skipped: blanks, comments and unknown text are lexemes too, so the lexemes of a text
spell it (`flatMap_ofText`). -/

namespace QuestScript

/-- A piece of text with its kind. -/
structure Lexeme where
  /-- What the text is. -/
  kind : TokenKind
  /-- The characters. -/
  text : List Char
deriving DecidableEq, Repr

namespace Lexeme

/-- Space, tab and the characters that end a line or a page. -/
def isBlank (c : Char) : Bool :=
  c == ' ' || c == '\t' || c == '\r' || c == '\n' || c == '\x0c'

/-- The characters that end a line. -/
def isLineEnd (c : Char) : Bool := c == '\r' || c == '\n'

/-- A decimal digit. -/
def isDigit (c : Char) : Bool := '0' ≤ c && c ≤ '9'

/-- A character that may start a word. -/
def startsWord (c : Char) : Bool := c.isAlpha || c == '_'

/-- A character that may stand in a word. -/
def isWordChar (c : Char) : Bool := startsWord c || isDigit c

/-- Number of characters at the front of `text` that satisfy `p`. -/
def run (p : Char → Bool) (text : List Char) : Nat := (text.takeWhile p).length

/-- Whether a block comment is closed in the text after its opening, and how many characters it has
there. A star is read together with the character after it: `*` and `/` close the comment, any other
pair is passed over, and a star at the end of the text is left out. -/
def commentReach : List Char → Bool × Nat
  | [] => (false, 0)
  | ['*'] => (false, 0)
  | '*' :: '/' :: _ => (true, 2)
  | '*' :: _ :: text => ((commentReach text).1, (commentReach text).2 + 2)
  | _ :: text => ((commentReach text).1, (commentReach text).2 + 1)

/-- Whether a string is closed on its line, and how many characters it has after its opening quote.
A backslash takes the next character of the line with it, and is left out at the end of the line. -/
def stringReach : List Char → Bool × Nat
  | [] => (false, 0)
  | '"' :: _ => (true, 1)
  | ['\\'] => (false, 0)
  | '\\' :: c :: text =>
    if isLineEnd c then (false, 0) else ((stringReach text).1, (stringReach text).2 + 2)
  | c :: text =>
    if isLineEnd c then (false, 0) else ((stringReach text).1, (stringReach text).2 + 1)

/-- The kind of a word. -/
def wordKind (flavor : Flavor) (word : List Char) : TokenKind :=
  match Keyword.ofWord? flavor word with
  | some k => .keyword k
  | none => .identifier

/-- The kind of a character that is a token of its own. -/
def punctuation? : Char → Option TokenKind
  | '(' => some .leftParen
  | ')' => some .rightParen
  | '\x7b' => some .leftBrace
  | '\x7d' => some .rightBrace
  | ',' => some .comma
  | ';' => some .semicolon
  | _ => none

/-- A lexeme that starts with a slash: a comment, or unknown text. -/
def slashReach : List Char → TokenKind × Nat
  | '/' :: text => (.lineComment, run (!isLineEnd ·) text + 1)
  | '*' :: text =>
    let (closed, n) := commentReach text
    (if closed then .blockComment else .unknown, n + 1)
  | _ => (.unknown, 0)

/-- The kind of the lexeme that starts with `c`, and how many characters of the text after `c`
belong to it. -/
def reach (flavor : Flavor) (c : Char) (text : List Char) : TokenKind × Nat :=
  if isBlank c then (.whitespace, run isBlank text)
  else if c = '/' then slashReach text
  else if c = '"' then
    let (closed, n) := stringReach text
    (if closed then .string else .unknown, n)
  else if isDigit c then (.integer, run isDigit text)
  else if startsWord c then
    let n := run isWordChar text
    (wordKind flavor (c :: text.take n), n)
  else ((punctuation? c).getD .unknown, 0)

/-- The lexemes of a text. -/
def ofText (flavor : Flavor) : List Char → List Lexeme
  | [] => []
  | c :: text =>
    let (kind, n) := reach flavor c text
    ⟨kind, c :: text.take n⟩ :: ofText flavor (text.drop n)
termination_by text => text.length
decreasing_by simp only [List.length_drop, List.length_cons]; omega

theorem flatMap_ofText (flavor : Flavor) (text : List Char) :
    (ofText flavor text).flatMap Lexeme.text = text := by
  fun_induction ofText flavor text with
  | case1 => rfl
  | case2 c text kind n h ih => simp [ih]

end Lexeme

end QuestScript
