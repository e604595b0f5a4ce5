import QuestScript.AnalysisError
import QuestScript.Grammar.Document
import QuestScript.Token.Stream
import QuestScript.Tree.Weave

/-! # Parsing

The result of parsing a document: its token stream, the tree of its significant tokens and the
syntax errors. Every document has a tree, whatever is wrong with it. The *full* tree holds the
hidden tokens as well, so it spells the whole document. -/

namespace QuestScript

/-- A parsed document. -/
structure Parse where
  /-- The flavor in which it was read. -/
  flavor : Flavor
  /-- All its tokens. -/
  stream : TokenStream
  /-- The tree of its significant tokens. -/
  tree : Tree
  /-- The syntax errors, in the order in which they were raised. -/
  errors : List SyntaxError

/-- Parse a document. -/
def parse (flavor : Flavor) (source : String) : Parse :=
  let stream := TokenStream.ofSource flavor source
  let blocks := (Grammar.blocks flavor).run [.file] stream.significant
  ⟨flavor, stream, .node .file blocks.trees, blocks.errors⟩

namespace Parse

/-- The tree with the hidden tokens of the document. -/
def fullTree (p : Parse) : Tree := p.tree.weaveFile p.stream.document

/-- The document follows the rules of the lexer and of the grammar. -/
def isClean (p : Parse) : Bool := p.stream.unknown.isEmpty && p.errors.isEmpty

/-- The index of the token that marks the end of the document. -/
def endIndex (p : Parse) : Nat := p.stream.length - 1

/-- The index of the token at which an error was raised. -/
def offendingIndex (p : Parse) (e : SyntaxError) : Nat :=
  (e.offending.map (·.index)).getD p.endIndex

/-- The token of the stream that a leaf of the tree comes from. -/
def tokenOf? (p : Parse) (leaf : Token) : Option Token := p.stream.atOffset? leaf.offset

/-- The token of the stream that a leaf of the tree comes from, which has to be there. -/
def locate (p : Parse) (leaf : Token) : Except AnalysisError Token :=
  match p.tokenOf? leaf with
  | some t => .ok t
  | none => .error (.tokenNotInStream leaf.offset)

/-- The tokens of the stream from which a tree reaches to which, which have to be there. -/
def bounds (p : Parse) (t : Tree) : Except AnalysisError (Token × Token) :=
  match t.firstToken?, t.lastToken? with
  | some first, some last => do return (← p.locate first, ← p.locate last)
  | _, _ => .error (.emptyNode t.kind)

/-- The span from the first to the last significant token of a tree. -/
def spanOf (p : Parse) (t : Tree) : Except AnalysisError Span :=
  (p.bounds t).map fun (first, last) => ⟨first.span.start, last.span.stop⟩

/-- The span of a tree, if it has one. -/
def spanOf? (p : Parse) (t : Tree) : Option Span := (p.spanOf t).toOption

/-- The indices of the first and the last significant token of a tree. -/
def tokenRange? (p : Parse) (t : Tree) : Option (Nat × Nat) :=
  (p.bounds t).toOption.map fun (first, last) => (first.index, last.index)

/-- Where the first significant token of a tree starts. -/
def startOf? (p : Parse) (t : Tree) : Option Position := (p.spanOf? t).map (·.start)

/-- The bytes that a tree covers. The file covers the whole document. -/
def byteRange (p : Parse) (t : Tree) : Nat × Nat :=
  let stop := (p.stream.get? p.endIndex).map (·.offset)
  if t.isNode .file then (0, stop.getD 0)
  else ((t.leaves.head?.map (·.offset)).getD 0, (t.leaves.getLast?.map (·.endOffset)).getD 0)

end Parse

end QuestScript
