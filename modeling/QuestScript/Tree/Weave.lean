import QuestScript.Tree.Basic

/-! # Weaving hidden tokens into a tree

The parser sees significant tokens only. Weaving puts the hidden tokens of the document back, each
as deep as it can stand without becoming the first or the last leaf of a node other than the whole
file. -/

namespace QuestScript

namespace Tree

mutual
/-- The tree with the hidden tokens between its leaves, and the tokens left over. The document given
starts with the first leaf of the tree. -/
def weave : Tree → List Token → Tree × List Token
  | token t, document => (token t, document.drop 1)
  | node k [], document => (node k [], document)
  | node k (c :: cs), document =>
    let (first, document) := c.weave document
    let (others, document) := weaveAll cs document
    (node k (first :: others), document)
/-- Trees with the hidden tokens before and between them, and the tokens left over. -/
def weaveAll : List Tree → List Token → List Tree × List Token
  | [], document => ([], document)
  | c :: cs, document =>
    let hidden := document.takeWhile (·.isHidden)
    let (c, document) := c.weave (document.dropWhile (·.isHidden))
    let (cs, document) := weaveAll cs document
    (hidden.map token ++ c :: cs, document)
end

/-- The tree of a file with all tokens of its document. -/
def weaveFile (t : Tree) (document : List Token) : Tree :=
  let (cs, rest) := weaveAll t.allChildren document
  .node .file (cs ++ rest.map token)

end Tree

end QuestScript
