import QuestScript.Grammar.Statement

/-! # Documents

```text
file          = block*
block         = mainBlock | stateBlock
mainBlock     = 'main' '{' mainAttribute* '}'
mainAttribute = (questname | version | hidden | hidden_end | disabled) ';'?
stateBlock    = 'state' IDENT '{' statement* '}'
```

The quest's name takes a string and its version a number; the other attributes stand alone. A block
that is not closed ends where the next one begins. -/

namespace QuestScript.Grammar

/-! ### The main block -/

/-- The node of the attribute that a keyword starts, and the kind of the value it takes. -/
def attribute? : Keyword → Option (NodeKind × Option TokenKind)
  | .questName => some (.questNameAttribute, some .string)
  | .version => some (.versionAttribute, some .integer)
  | .hidden => some (.hiddenAttribute, none)
  | .hiddenEnd => some (.hiddenEndAttribute, none)
  | .disabled => some (.disabledAttribute, none)
  | _ => none

/-- The keywords that start an attribute. -/
def attributeKeywords : List Keyword := [.questName, .version, .hidden, .hiddenEnd, .disabled]

/-- An attribute of the main block. -/
def mainAttribute (k : Keyword) (n : NodeKind) (value : Option TokenKind) : Grammar :=
  node .mainAttribute (node n
    (seq [keyword k, (value.map expect).getD nothing, semicolon]))

/-- The attribute that a token of the kind starts. -/
def mainAttribute? : TokenKind → Option Grammar
  | .keyword k => (attribute? k).map fun (n, value) => mainAttribute k n value
  | _ => none

theorem takes_mainAttribute {k : TokenKind} {g : Grammar} (h : mainAttribute? k = some g) :
    g.Takes k := by
  cases k <;> simp only [mainAttribute?, reduceCtorEq, Option.map_eq_some_iff] at h
  obtain ⟨_, -, rfl⟩ := h
  exact (((takes_expect _).seq _).node _).node _

/-- The token ends the contents of a block: the block's closing brace or the start of another. -/
def endsBlock : TokenKind → Bool
  | .rightBrace | .keyword .main | .keyword .state => true
  | _ => false

/-- The contents of the main block. -/
def mainAttributes : Grammar :=
  listOf {
    item? := mainAttribute?
    isClosing := endsBlock
    expected := attributeKeywords.map .keyword ++ [.rightBrace]
    takes := takes_mainAttribute }

/-- The main block. -/
def mainBlock : Grammar :=
  node .mainBlock (seq [keyword .main, expect .leftBrace, mainAttributes, expect .rightBrace])

/-! ### States -/

/-- The contents of a state. -/
def statements (flavor : Flavor) : Grammar :=
  listOf {
    item? := statement? flavor
    isClosing := endsBlock
    expected := (statementKeywords flavor).map .keyword ++ [.rightBrace]
    takes := takes_statement }

/-- A state. -/
def stateBlock (flavor : Flavor) : Grammar :=
  node .stateBlock (seq [keyword .state, expect .identifier, expect .leftBrace, statements flavor,
    expect .rightBrace])

/-! ### The file -/

/-- The block that a token of the kind starts. -/
def block? (flavor : Flavor) : TokenKind → Option Grammar
  | .keyword .main => some (node .block mainBlock)
  | .keyword .state => some (node .block (stateBlock flavor))
  | _ => none

theorem takes_block {flavor : Flavor} {k : TokenKind} {g : Grammar}
    (h : block? flavor k = some g) : g.Takes k := by
  unfold block? at h
  split at h <;> simp only [Option.some.injEq, reduceCtorEq] at h <;> subst h <;>
    exact (((takes_expect _).seq _).node _).node _

/-- The kinds that may stand between blocks, among them the starts of blocks reserved for later. -/
def blockFirst : List TokenKind :=
  ([.main, .state, .character, .npc, .map, .world] : List Keyword).map .keyword ++ [.endOfInput]

/-- The blocks of a file. -/
def blocks (flavor : Flavor) : Grammar :=
  listOf {
    item? := block? flavor
    isClosing := fun _ => false
    expected := blockFirst
    takes := takes_block }

/-- A whole document. -/
def file (flavor : Flavor) : Grammar := node .file (blocks flavor)

end QuestScript.Grammar
