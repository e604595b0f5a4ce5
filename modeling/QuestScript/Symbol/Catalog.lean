import QuestScript.Parse
import QuestScript.Symbol.Action
import QuestScript.Symbol.Rule
import QuestScript.Text.Lowercase

/-! # Symbol catalogs

The symbols visible in a document: the built-in rules and actions of its flavor and the states that
it declares, in document order. States may share a name; a look-up ignores letter case and takes the
first match. -/

namespace QuestScript

/-- The symbols visible in one document. -/
structure Catalog where
  /-- The flavor whose built-ins are visible. -/
  flavor : Flavor
  /-- The states declared in the document, in order. -/
  states : List StateSymbol
deriving Repr

namespace Catalog

/-- The first token of kind `k` among the children of a node. -/
def childToken? (t : Tree) (k : TokenKind) : Option Token :=
  (t.children.filterMap Tree.token?).find? (·.kind == k)

/-- The first description in a block. -/
def description? (block : Tree) : Option String :=
  ((block.subtrees.filter (·.isNode .description)).findSome? (childToken? · .string)).map (·.text)

/-- The state that a block declares, if it has a name. -/
def stateOf? (block : Tree) : Option StateSymbol :=
  (childToken? block .identifier).map fun name => ⟨name, block, description? block⟩

/-- The built-ins of a flavor, without any state. -/
def builtins (flavor : Flavor) : Catalog := ⟨flavor, []⟩

/-- The catalog of a document. The full tree has the same states (`ofParse_full`). -/
def ofParse (p : Parse) : Catalog :=
  ⟨p.flavor, (p.tree.subtrees.filter (·.isNode .stateBlock)).filterMap stateOf?⟩

/-- The visible rules. -/
def rules (c : Catalog) : List Builtin := Builtin.rules c.flavor

/-- The visible actions. -/
def actions (c : Catalog) : List Builtin := Builtin.actions c.flavor

/-- All symbols of a kind, in catalog order. -/
def symbols (c : Catalog) : SymbolKind → List Symbol
  | .rule => c.rules.map .builtin
  | .action => c.actions.map .builtin
  | .state => c.states.map .state

/-- The names of all symbols of a kind, in catalog order. -/
def names (c : Catalog) (kind : SymbolKind) : List String := (c.symbols kind).map Symbol.name

/-- The states with a name, in document order. -/
def statesNamed (c : Catalog) (name : String) : List StateSymbol :=
  c.states.filter fun s => lowercase s.name == lowercase name

/-- The first symbol of a kind with a name. -/
def lookup? (c : Catalog) (kind : SymbolKind) (name : String) : Option Symbol :=
  match kind with
  | .rule => (c.rules.find? (namesMatch ·.name name)).map .builtin
  | .action => (c.actions.find? (namesMatch ·.name name)).map .builtin
  | .state => (c.statesNamed name).head?.map .state

end Catalog

end QuestScript
