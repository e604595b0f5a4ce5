import QuestScript.Parse
import QuestScript.Tree.Place

/-! # Carets

Which token lies under the caret of an editor, and which element of the tree it belongs to. A token
contains the caret if the caret is on its line and between its ends, both included. The deepest
match wins: the children of a node are searched before all tokens of the node. -/

namespace QuestScript

/-- A place in the text, with its line counted from one as tokens count them. -/
structure Caret where
  /-- The line, counted from one. -/
  line : Nat
  /-- Number of characters before it on its line. -/
  column : Nat
deriving DecidableEq, Repr

namespace Caret

/-- The caret at a position. -/
def ofPosition (p : Position) : Caret := ⟨p.line + 1, p.column⟩

/-- The token contains the caret. -/
def isIn (c : Caret) (t : Token) : Bool :=
  t.line == c.line && t.column ≤ c.column && c.column ≤ t.column + t.charLength

/-- The part of a token's text before the caret. -/
def textBefore (c : Caret) (t : Token) : String :=
  String.ofList (t.text.toList.take (c.column - t.column))

end Caret

/-- What lies under a caret. -/
structure CaretHit where
  /-- The index of the token that contains the caret. -/
  index : Nat
  /-- The token, or the node among whose hidden tokens the caret is. -/
  element : Place
  /-- The part of the token's text before the caret. -/
  typed : String

namespace Parse

variable (p : Parse)

/-- The hit of a caret in a token that belongs to an element. -/
def hit? (c : Caret) (element : Place) (t : Token) : Option CaretHit :=
  if c.isIn t then some ⟨t.index, element, c.textBefore t⟩ else none

/-- The indices of the first and the last token of a node. The file reaches to the end of the
document. -/
def reachOf? (t : Tree) : Option (Nat × Nat) :=
  if t.isNode .file then some (((p.tokenRange? t).map (·.1)).getD p.endIndex, p.endIndex)
  else p.tokenRange? t

/-- The tokens of a node, hidden ones included. -/
def tokensIn (t : Tree) : List Token :=
  match p.reachOf? t with
  | some (first, last) => (p.stream.tokens.take (last + 1)).drop first
  | none => []

/-- The caret's line is above the first or below the last of the tokens. -/
def isBeside (c : Caret) (tokens : List Token) : Bool :=
  tokens.head?.any (decide <| c.line < ·.line) || tokens.getLast?.any (decide <| ·.line < c.line)

mutual
/-- The hit of a caret in a tree. -/
def resolveIn (c : Caret) (path : List Frame) : Tree → Option CaretHit
  | .token t => hit? c ⟨.token t, path⟩ t
  | .node k cs =>
    let place : Place := ⟨.node k cs, path⟩
    if k = .error then
      place.firstLeaf?.bind fun leaf => leaf.focus.token?.bind (hit? c leaf)
    else
      let tokens := p.tokensIn place.focus
      if isBeside c tokens then none
      else match resolveAmong c k path [] cs with
        | some found => some found
        | none => tokens.findSome? (hit? c place)
/-- The first hit of a caret among children of a node of kind `k`, of which `before` come first. -/
def resolveAmong (c : Caret) (k : NodeKind) (path : List Frame) (before : List Tree) :
    List Tree → Option CaretHit
  | [] => none
  | t :: ts =>
    match resolveIn c (⟨k, before, ts⟩ :: path) t with
    | some found => some found
    | none => resolveAmong c k path (t :: before) ts
end

/-- What lies under a caret. -/
def resolve (c : Caret) : Option CaretHit := p.resolveIn c [] p.tree

end Parse

end QuestScript
