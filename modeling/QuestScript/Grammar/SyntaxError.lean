import QuestScript.Token.Basic
import QuestScript.Tree.Kind

/-! # Syntax errors

What the parser records when the tokens ahead do not fit: how it went on, where, what it expected
there and inside which rules. -/

namespace QuestScript

/-- How the parser went on after a token that does not fit. -/
inductive Recovery
  /-- It did without the expected token; nothing was skipped. -/
  | missing
  /-- It skipped one token in front of the expected one. -/
  | extraneous
  /-- It skipped tokens up to one where it could go on. -/
  | mismatched
deriving DecidableEq, Repr

namespace Recovery

/-- The name of the way to go on. -/
def name : Recovery → String
  | missing => "Missing"
  | extraneous => "Extraneous"
  | mismatched => "Mismatched"

end Recovery

/-- A place where the tokens do not follow the grammar. -/
structure SyntaxError where
  /-- How the parser went on. -/
  recovery : Recovery
  /-- The token that does not fit, or none at the end of the document. -/
  offending : Option Token
  /-- The kinds that would have fitted, in vocabulary order. -/
  expected : List TokenKind
  /-- The rules the parser was in, the outermost first. -/
  rules : List NodeKind
deriving DecidableEq, Repr

namespace SyntaxError

/-- The error was raised inside a rule that builds nodes of the kind. -/
def isWithin (e : SyntaxError) (k : NodeKind) : Bool := e.rules.contains k

/-- The error raised on the tokens ahead where one of `kinds` would have fitted. -/
def raise (recovery : Recovery) (kinds : List TokenKind) (rules : List NodeKind)
    (ahead : List Token) : SyntaxError :=
  ⟨recovery, ahead.head?, TokenKind.sorted kinds, rules⟩

end SyntaxError

end QuestScript
