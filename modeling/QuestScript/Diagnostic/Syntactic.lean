import QuestScript.Diagnostic.Problem
import QuestScript.Parse

/-! # Lexical and syntax findings

Unknown text and syntax errors as findings. What was expected is put in terms of the language: a
name for each kind of token, or one word for a set of kinds that always go together. An error at the
end of the document is shown at the last token before. -/

namespace QuestScript

namespace TokenKind

/-- What the user calls a token of the kind; kinds that are never offered have no such name. -/
def expectedName? : TokenKind → Option String
  | endOfInput | semicolon | unknown => none
  | keyword .character | keyword .npc | keyword .map | keyword .world => none
  | keyword k => some s!"'{k.spelling}'"
  | integer => some "integer"
  | string => some "string"
  | identifier => some "identifier"
  | k => k.displayName?

end TokenKind

namespace SyntaxError

/-- What was expected, in words. -/
def expectation (e : SyntaxError) : String :=
  if e.expected.contains (.keyword .questName) then "attribute name"
  else if e.expected.contains (.keyword .description) then "statement"
  else if e.expected.contains (.keyword .goto) && e.expected.contains .identifier then "expression"
  else if e.expected.contains .string && e.expected.contains .integer &&
      e.isWithin .argumentList then
    "argument expression"
  else ", ".intercalate (e.expected.filterMap TokenKind.expectedName?)

/-- The problem of an error at a token with the given text. A token is called extraneous only where
there is a choice of what to expect instead. -/
def problem (e : SyntaxError) (found : String) : Problem :=
  if e.recovery = .missing ∨ !e.expectation.toList.contains ',' then .expected e.expectation
  else .extraneous found e.expectation

end SyntaxError

namespace Parse

/-- The finding for a piece of unknown text. -/
def lexicalFinding (t : Token) : Finding :=
  .plain t.span (if t.text.toList.head? == some '"' then .unterminatedString else .invalidInput)

/-- The token at which an error is shown. -/
def shownToken? (p : Parse) (e : SyntaxError) : Option Token :=
  match e.offending with
  | some t => some t
  | none => (p.stream.previousSignificant? p.endIndex).or (p.stream.get? p.endIndex)

/-- The finding for a syntax error. -/
def syntaxFinding? (p : Parse) (e : SyntaxError) : Option Finding :=
  (p.shownToken? e).map fun t => .plain t.span (e.problem t.text)

/-- The findings of the lexer, in document order. -/
def lexicalFindings (p : Parse) : List Finding := p.stream.unknown.map lexicalFinding

/-- The findings of the parser, in the order in which they were raised. -/
def parserFindings (p : Parse) : List Finding := p.errors.filterMap p.syntaxFinding?

/-- The byte offset at which an error was raised. -/
def errorOffset (p : Parse) (e : SyntaxError) : Nat :=
  ((e.offending.or (p.stream.get? p.endIndex)).map (·.offset)).getD 0

/-- The findings of the lexer and the parser, by the offset at which they were raised; at one offset
those of the lexer come first. -/
def syntaxFindings (p : Parse) : List Finding :=
  let lexical := p.stream.unknown.map fun t => (t.offset, lexicalFinding t)
  let syntactic := p.errors.filterMap fun e => (p.syntaxFinding? e).map (p.errorOffset e, ·)
  ((lexical ++ syntactic).mergeSort fun a b => decide (a.1 ≤ b.1)).map (·.2)

end Parse

end QuestScript
