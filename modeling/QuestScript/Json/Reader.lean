import QuestScript.Json.Value

/-! # Reading JSON

A text is first cut into tokens, blanks left out. The tokens are then read from left to right by a
machine that keeps the arrays and objects still open on a stack. -/

namespace QuestScript.Json

/-! ### Tokens -/

/-- A token of the format. -/
inductive Token
  | leftBracket | rightBracket | leftBrace | rightBrace | comma | colon
  | string (text : Option String)
  | scalar (value : Json)

/-- A character between tokens. -/
def isBlank (c : Char) : Bool := c == ' ' || c == '\t' || c == '\n' || c == '\r'

/-- A decimal digit. -/
def isDigit (c : Char) : Bool := '0' ≤ c && c ≤ '9'

/-- A character that may stand in a number. -/
def isNumberChar (c : Char) : Bool :=
  isDigit c || c == '-' || c == '+' || c == '.' || c == 'e' || c == 'E'

/-- The value of a hexadecimal digit. -/
def hexDigit? (c : Char) : Option Nat :=
  if isDigit c then some (c.toNat - '0'.toNat)
  else if 'a' ≤ c ∧ c ≤ 'f' then some (c.toNat - 'a'.toNat + 10)
  else if 'A' ≤ c ∧ c ≤ 'F' then some (c.toNat - 'A'.toNat + 10)
  else none

/-- The number that four hexadecimal digits write. -/
def hexNumber? (a b c d : Char) : Option Nat := do
  return (((← hexDigit? a) * 16 + (← hexDigit? b)) * 16 + (← hexDigit? c)) * 16 + (← hexDigit? d)

/-- The character of a short escape. -/
def escaped? : Char → Option Char
  | '"' => some '"'
  | '\\' => some '\\'
  | '/' => some '/'
  | 'b' => some '\x08'
  | 'f' => some '\x0c'
  | 'n' => some '\n'
  | 'r' => some '\r'
  | 't' => some '\t'
  | _ => none

/-- A part of a string: a character, or the number given by an escape. -/
inductive StringPart
  | char (c : Char)
  | unit (n : Nat)

/-- The parts of a string after its opening quote, and how many characters it has there. -/
def stringParts? : List Char → Option (List StringPart × Nat)
  | '"' :: _ => some ([], 1)
  | '\\' :: 'u' :: a :: b :: c :: d :: text => do
    let n ← hexNumber? a b c d
    let (parts, length) ← stringParts? text
    return (.unit n :: parts, length + 6)
  | '\\' :: e :: text => do
    let c ← escaped? e
    let (parts, length) ← stringParts? text
    return (.char c :: parts, length + 2)
  | c :: text =>
    if c = '\\' ∨ c.toNat < 0x20 then none
    else do
      let (parts, length) ← stringParts? text
      return (.char c :: parts, length + 1)
  | [] => none

/-- The number is the first half of a character. -/
def isLeading (n : Nat) : Bool := 0xD800 ≤ n && n < 0xDC00

/-- The number is the second half of a character. -/
def isTrailing (n : Nat) : Bool := 0xDC00 ≤ n && n < 0xE000

/-- The text that the parts spell, unless half a character stands alone. -/
def spelled? : List StringPart → Option (List Char)
  | [] => some []
  | .char c :: parts => (spelled? parts).map (c :: ·)
  | .unit n :: parts =>
    if isLeading n then
      match parts with
      | .unit m :: parts =>
        if isTrailing m then
          (spelled? parts).map (Char.ofNat (0x10000 + (n - 0xD800) * 0x400 + (m - 0xDC00)) :: ·)
        else none
      | _ => none
    else if isTrailing n then none
    else (spelled? parts).map (Char.ofNat n :: ·)

/-- The text is one digit or several, the first of which is not a zero. -/
def isWhole (digits : List Char) : Bool :=
  digits.all isDigit && (digits.length == 1 || (digits.head?.any (· != '0')))

/-- The text is a sequence of digits, at least one. -/
def isDigits (digits : List Char) : Bool := digits.all isDigit && !digits.isEmpty

/-- The text is empty or an exponent. -/
def isExponent : List Char → Bool
  | [] => true
  | e :: '+' :: digits | e :: '-' :: digits | e :: digits =>
    (e == 'e' || e == 'E') && isDigits digits

/-- The text is empty, a fraction, an exponent or both. -/
def isTail : List Char → Bool
  | '.' :: text => isDigits (text.takeWhile isDigit) && isExponent (text.dropWhile isDigit)
  | text => isExponent text

/-- The number that a text writes. -/
def number? (text : List Char) : Option Json :=
  let unsigned := match text with
    | '-' :: rest => rest
    | _ => text
  let whole := unsigned.takeWhile isDigit
  if !isWhole whole || !isTail (unsigned.dropWhile isDigit) then none
  else if text.all isDigit then
    some (.natural (text.foldl (fun n c => n * 10 + (c.toNat - '0'.toNat)) 0))
  else some (.number (String.ofList text))

/-- The value that a word stands for. -/
def word (text : List Char) : Option Json :=
  if text = "true".toList then some (.bool true)
  else if text = "false".toList then some (.bool false)
  else if text = "null".toList then some .null
  else none

/-- The token that starts with `c`, and how many characters of the text after `c` belong to it. -/
def token? (c : Char) (text : List Char) : Option (Token × Nat) :=
  match c with
  | '[' => some (.leftBracket, 0)
  | ']' => some (.rightBracket, 0)
  | '\x7b' => some (.leftBrace, 0)
  | '\x7d' => some (.rightBrace, 0)
  | ',' => some (.comma, 0)
  | ':' => some (.colon, 0)
  | '"' => do
    let (parts, length) ← stringParts? text
    return (.string ((spelled? parts).map String.ofList), length)
  | _ =>
    if isDigit c || c == '-' then do
      let more := text.takeWhile isNumberChar
      return (.scalar (← number? (c :: more)), more.length)
    else do
      let more := text.takeWhile Char.isAlpha
      return (.scalar (← word (c :: more)), more.length)

/-- The tokens of a text. -/
def tokens? : List Char → Option (List Token)
  | [] => some []
  | c :: text =>
    if isBlank c then tokens? text
    else
      match token? c text with
      | some (t, n) => (tokens? (text.drop n)).map (t :: ·)
      | none => none
termination_by text => text.length
decreasing_by
  · simp
  · simp only [List.length_drop, List.length_cons]; omega

/-! ### Values -/

/-- An array or object that is still open, its last item or member first. -/
inductive Opened
  | array (items : List Json)
  | object (members : List (Option String × Json)) (name : Option String)

mutual
/-- The value that the tokens write, where a value must come next. -/
def readValue (stack : List Opened) : List Token → Option Json
  | .scalar v :: ts => readAfter stack v ts
  | .string text :: ts => readAfter stack (.string text) ts
  | .leftBracket :: .rightBracket :: ts => readAfter stack (.array []) ts
  | .leftBracket :: ts => readValue (.array [] :: stack) ts
  | .leftBrace :: .rightBrace :: ts => readAfter stack (.object []) ts
  | .leftBrace :: .string name :: .colon :: ts => readValue (.object [] name :: stack) ts
  | _ => none
/-- The value that the tokens write, where the value `v` has just been read. -/
def readAfter (stack : List Opened) (v : Json) : List Token → Option Json
  | [] => if stack.isEmpty then some v else none
  | .comma :: .string name :: .colon :: ts =>
    match stack with
    | .object members last :: stack => readValue (.object ((last, v) :: members) name :: stack) ts
    | _ => none
  | .comma :: ts =>
    match stack with
    | .array items :: stack => readValue (.array (v :: items) :: stack) ts
    | _ => none
  | .rightBracket :: ts =>
    match stack with
    | .array items :: stack => readAfter stack (.array (v :: items).reverse) ts
    | _ => none
  | .rightBrace :: ts =>
    match stack with
    | .object members last :: stack => readAfter stack (.object ((last, v) :: members).reverse) ts
    | _ => none
  | _ => none
end

/-- The value that a text writes. -/
def read? (text : String) : Option Json := (tokens? text.toList).bind (readValue [])

end QuestScript.Json
