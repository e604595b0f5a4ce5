import QuestScript.Diagnostic.Invocation
import QuestScript.Reference
import QuestScript.Spelling
import QuestScript.Symbol.Catalog

/-! # Semantic findings

What the grammar does not express: names must be known and written as declared, keywords must be
lowercase, blocks and their parts must not be repeated, a condition must be able to hold, and there
must be a main block. The tree is walked once, each node before its children. Tokens that were
skipped because of a syntax error are passed over, as the parser has reported them. -/

namespace QuestScript

/-- What the checks need to know about a document. -/
structure Checker where
  /-- The document. -/
  parse : Parse
  /-- The symbols visible in it. -/
  catalog : Catalog
  /-- Keyword spellings that need no warning. -/
  casings : List String

namespace Checker

variable (c : Checker)

/-! ### Names -/

/-- The fix that writes a name otherwise. -/
def respell (title name : String) (range : Span) : QuickFix := ⟨title, [⟨range, name⟩], true⟩

/-- The fix that declares a state after the block of a reference to it. -/
def declareState (name : String) (after : Position) (isPreferred : Bool) : QuickFix :=
  ⟨s!"Add missing state '{name}'", [.insert after s!"\n\nstate {name}\n\x7b\n\n\x7d"], isPreferred⟩

/-- The finding for a name that nothing is called. -/
def unresolved (p : Place) (kind : SymbolKind) (name : String) : Report :=
  .of do
    let range ← c.parse.spanOf p.focus
    let suggestion := suggest name (c.catalog.names kind)
    let respellings := (suggestion.map fun other =>
      respell s!"Change spelling to '{other}'" other range).toList
    let block := if kind = .state then p.ancestor? .stateBlock else none
    let declarations ← match block with
      | some block => do
        let stop := (← c.parse.spanOf block.focus).stop
        pure [declareState name stop respellings.isEmpty]
      | none => pure []
    return [⟨range, .unresolved kind name suggestion, respellings ++ declarations⟩]

/-- The finding for a name that is declared in another letter case. -/
def checkCasing (p : Place) (name declared : String) : Report :=
  if name = declared then .nothing
  else .of do
    let range ← c.parse.spanOf p.focus
    return [⟨range, .referenceCasing declared,
      [respell s!"Change casing to '{declared}'" declared range]⟩]

/-- The findings for a name that refers to something. -/
def checkReference (p : Place) (name : String) : Report :=
  match classify c.parse.flavor p with
  | none => .nothing
  | some kind =>
    match c.catalog.lookup? kind name with
    | none => c.unresolved p kind name
    | some symbol =>
      let invocation := match symbol.builtin? with
        | some b => Invocation.check c.parse b p
        | none => .nothing
      invocation.andThen (c.checkCasing p name symbol.name)

/-! ### Keywords -/

/-- The finding for a keyword that is neither lowercase nor in an accepted spelling. -/
def checkKeyword (p : Place) (t : Token) : Report :=
  let lower := lowercase t.text
  if !t.kind.isKeyword || t.text == lower || c.casings.contains t.text then .nothing
  else .of do
    let range ← c.parse.spanOf p.focus
    return [⟨range, .keywordCasing t.text, [respell s!"Change casing to '{lower}'" lower range]⟩]

/-! ### Blocks -/

/-- The finding for a main block after the first. -/
def redeclaredMain (p : Place) : Report :=
  .of do
    let some keyword := p.focus.child? 0 | throw (.missingChild (.node .mainBlock) "keyword")
    let block ← c.parse.spanOf p.focus
    let range ← c.parse.spanOf keyword
    return [.fixable range .duplicateMain "Remove duplicate 'main' block" (.delete block)]

/-- The attributes whose keyword, in lowercase, occurs before, and that keyword. -/
def repeatedAttributes : (seen : List String) → List Tree → List (String × Tree)
  | _, [] => []
  | seen, t :: ts =>
    match t.firstToken? with
    | none => repeatedAttributes seen ts
    | some keyword =>
      let name := lowercase keyword.text
      if seen.contains name then (name, t) :: repeatedAttributes seen ts
      else repeatedAttributes (name :: seen) ts

/-- The finding for a repeated attribute. -/
def repeatedAttribute (name : String) (t : Tree) : Report :=
  .of do
    let range ← c.parse.spanOf t
    return [.fixable range (.duplicateAttribute name) s!"Remove duplicate '{name}' attribute"
      (.delete range)]

/-- The findings for a main block. -/
def checkMainBlock (mainSeen : Bool) (p : Place) : Report :=
  let attributes := p.focus.children.filter (·.isNode .mainAttribute)
  (if mainSeen then c.redeclaredMain p else .nothing).andThen
    (.all ((repeatedAttributes [] attributes).map fun (name, t) => c.repeatedAttribute name t))

/-- The finding for a state whose name another state has before it. -/
def checkStateName (name : Token) : Report :=
  match c.catalog.statesNamed name.text with
  | first :: _ :: _ =>
    if first.declaration = name then .nothing
    else .of do
      return [.plain (← c.parse.spanOf (.token name)) (.duplicateState name.text)]
  | _ => .nothing

/-- The descriptions directly in a state. -/
def descriptions (block : Tree) : List Tree :=
  ((block.children.filter (·.isNode .statement)).filterMap (·.child? 0)).filter
    (·.isNode .description)

/-- The finding for a description after the first of its state. -/
def repeatedDescription (t : Tree) : Report :=
  .of do
    let range ← c.parse.spanOf t
    return [.fixable range .duplicateDescription "Remove duplicate 'desc'" (.delete range)]

/-- The findings for a state whose name stands right after its keyword. -/
def checkStateBlock (p : Place) : Report :=
  match (p.focus.child? 1).bind Tree.token? with
  | some name =>
    if name.kind = .identifier then
      (c.checkStateName name).andThen
        (.all (((descriptions p.focus).drop 1).map c.repeatedDescription))
    else .nothing
  | none => .nothing

/-- The finding for a `goto` in the place of a condition. -/
def checkGoto (p : Place) : Report :=
  let isCondition (e : Place) : Bool :=
    e.focus.isNode .expression && Anchor.isChildAt Shape.conditional 1 e
  if p.parent?.any isCondition then
    .of do return [.plain (← c.parse.spanOf p.focus) .gotoNotAllowed]
  else .nothing

/-- Number of spaces and tabs right before a token, on its line. -/
def indentBefore (t : Token) : Nat :=
  let before := (c.parse.stream.tokens.take t.index).flatMap (·.text.toList)
  min (before.reverse.takeWhile fun ch => ch == ' ' || ch == '\t').length t.column

/-- The finding for a document without a main block. Nothing is said of an empty document, nor while
its first word may still become `main`. -/
def checkMainExists : Report :=
  match c.parse.stream.firstMeaningful? with
  | none => .nothing
  | some t =>
    if (lowercase t.text).toList.isPrefixOf "main".toList then .nothing
    else
      let start := t.span.start
      let fix : QuickFix := ⟨"Add a 'main' block",
        [.insert ⟨start.line, start.column - c.indentBefore t⟩ "main\n\x7b\n\n\x7d\n\n"], false⟩
      ⟨[⟨t.span, .missingMain, [fix]⟩], none⟩

/-! ### The walk -/

/-- The findings at a place, where a main block may have been seen before. -/
def checkPlace (mainSeen : Bool) (p : Place) : Report :=
  match p.focus with
  | .token t => (c.checkReference p t.text).andThen (c.checkKeyword p t)
  | .node .mainBlock _ => c.checkMainBlock mainSeen p
  | .node .stateBlock _ => c.checkStateBlock p
  | .node .gotoExpression _ => c.checkGoto p
  | .node _ _ => .nothing

/-- The findings at places in order, then for the document as a whole. -/
def checkPlaces : (mainSeen : Bool) → List Place → Report
  | mainSeen, [] => if mainSeen then .nothing else c.checkMainExists
  | mainSeen, p :: ps =>
    (c.checkPlace mainSeen p).andThen (checkPlaces (mainSeen || p.focus.isNode .mainBlock) ps)

/-- The places that are checked: all but skipped tokens. -/
def places : List Place := (Place.root c.parse.tree).descendants.filter (!·.isError)

end Checker

namespace Parse

/-- The checker of a document. -/
def checker (p : Parse) (casings : List String) : Checker := ⟨p, .ofParse p, casings⟩

/-- The semantic findings of a document. The full tree has the same (`check_full`). -/
def check (p : Parse) (casings : List String) : Report :=
  let c := p.checker casings
  c.checkPlaces false c.places

end Parse

end QuestScript
