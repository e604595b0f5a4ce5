import QuestScript.Editor.Analysis

/-! # Completions

What may be written at the caret. Keywords that fit there are offered first; if none of them agrees
with what has been typed, the symbols that the name under the caret could refer to. What has been
typed keeps the labels in which its characters occur in order, closest first. -/

namespace QuestScript

/-- What kind of thing is offered. -/
inductive CompletionKind
  | keyword | function | module
deriving DecidableEq, Repr

namespace CompletionKind

/-- The number by which editors know the kind. -/
def code : CompletionKind → Nat
  | function => 3
  | module => 9
  | keyword => 14

end CompletionKind

/-- Something that may be written at the caret. -/
structure Completion where
  /-- The text to write. -/
  label : String
  /-- What kind of thing it is. -/
  kind : CompletionKind
  /-- The declaration shown beside it. -/
  detail : Option String
  /-- The documentation, as Markdown. -/
  documentation : Option String
deriving DecidableEq, Repr

namespace Completion

/-- A keyword on offer. -/
def ofKeyword (k : Keyword) : Completion := ⟨k.spelling, .keyword, none, none⟩

/-- A symbol on offer. -/
def ofSymbol : Symbol → Completion
  | .builtin b =>
    ⟨b.name, .function, some ("(" ++ b.kind.name ++ ") " ++ b.signature), some b.documentation⟩
  | .state s =>
    ⟨s.name, .module, some ("(state) " ++ s.name),
      s.description.map fun text => "```eoplus\n" ++ text ++ "\n```"⟩

/-- The characters of the first text occur in the second, in order. -/
def isSpelledIn : List Char → List Char → Bool
  | [], _ => true
  | _ :: _, [] => false
  | c :: cs, d :: ds => if c = d then isSpelledIn cs ds else isSpelledIn (c :: cs) ds

/-- The items whose label spells what has been typed, in any letter case, best score first; those of
equal score keep their order. A score is made of what has been typed and the label, both in lowercase,
and `order` compares two scores. Before anything is typed all items are kept in order. -/
def filterBy {α : Type} (order : α → α → Ordering) (score : List Char → List Char → α)
    (typed : String) (items : List Completion) : List Completion :=
  if typed.isEmpty then items
  else
    let needle := (lowercase typed).toList
    let label (item : Completion) := (lowercase item.label).toList
    (items.filter fun item => isSpelledIn needle (label item)).mergeSort fun x y =>
      (order (score needle (label y)) (score needle (label x))).isLE

/-- The score of a label that spells what has been typed: how many characters it has. -/
def labelLength (_typed label : List Char) : Nat := label.length

/-- Fewer characters have to be left out of the shorter of two labels, so it is the closer. -/
def shorter (m n : Nat) : Ordering := compare n m

/-- The items that agree with what has been typed, closest first. -/
def filter (typed : String) (items : List Completion) : List Completion :=
  filterBy shorter labelLength typed items

/-! ### Keywords -/

/-- The keywords that start a block. -/
def blockKeywords : List Keyword := [.main, .state]

/-- The keywords that may stand where a skipped token does. -/
def skippedKeywords (flavor : Flavor) : Option NodeKind → List Keyword
  | some .file => blockKeywords
  | some .mainBlock => Grammar.attributeKeywords
  | some .stateBlock => Grammar.statementKeywords flavor
  | _ => []

/-- The keywords that may start a node of the kind. -/
def leadingKeywords (flavor : Flavor) : NodeKind → List Keyword
  | .mainBlock | .stateBlock => blockKeywords
  | .questNameAttribute | .versionAttribute | .hiddenAttribute | .hiddenEndAttribute
  | .disabledAttribute => Grammar.attributeKeywords
  | .description | .rule | .goal | .ifThen | .elseIf | .otherwise | .action =>
    Grammar.statementKeywords flavor
  | .gotoExpression | .invocationExpression => [.goto]
  | _ => []

/-- The keywords that may replace the token at a place. -/
def tokenKeywords (flavor : Flavor) (p : Place) : List Keyword :=
  match p.parent? with
  | none => []
  | some parent =>
    if parent.focus.isNode .error then skippedKeywords flavor parent.parentKind?
    else
      let leading :=
        if p.index? = some 0 then (p.parentKind?.map (leadingKeywords flavor)).getD [] else []
      if !leading.isEmpty then leading
      else if parent.focus.isNode .rule && p.previous?.any (·.isNode .argumentList) then [.goto]
      else []

/-- The EOSERV statements that take expressions. -/
def operandStatements : List NodeKind :=
  [.rule, .goal, .ifThen, .elseIf, .otherwise, .action]

end Completion

namespace Analysis

variable (a : Analysis)

/-- The hidden token at an index comes after the opening brace of a block. -/
def isInsideBraces (block : Tree) (index : Nat) : Bool :=
  match Catalog.childToken? block .leftBrace with
  | some brace =>
    (a.parse.stream.previousSignificant? index).any (decide <| brace.offset ≤ ·.offset)
  | none => false

/-- The keywords that may stand at a hidden token directly in a node. -/
def hiddenKeywords (t : Tree) (index : Nat) : List Keyword :=
  match t with
  | .token _ => []
  | .node .file _ => Completion.blockKeywords
  | .node .mainBlock _ => if a.isInsideBraces t index then Grammar.attributeKeywords else []
  | .node .stateBlock _ =>
    if a.isInsideBraces t index then Grammar.statementKeywords a.flavor else []
  | .node k _ =>
    let takesGoto : Bool := match a.flavor with
      | .eoserv => Completion.operandStatements.contains k
      | .official => k == .rule &&
        (a.parse.stream.previousSignificant? index).any (·.kind == .rightParen)
    if takesGoto then [.goto] else []

/-- The symbols that the name at a place could refer to. -/
def symbolCompletions (p : Place) : List Completion :=
  match a.referenceKind? p with
  | some kind => (a.catalog.symbols kind).map .ofSymbol
  | none => []

section Scores
variable {α : Type} (order : α → α → Ordering) (score : List Char → List Char → α)

/-- The completions at a position, those of a score before those of a lower one. -/
def completionsBy (position : Position) : List Completion :=
  match a.hitAt position with
  | none => []
  | some hit =>
    match hit.element.focus with
    | .token t =>
      let typed := if t.kind.isWord then hit.typed else ""
      let keywords := Completion.tokenKeywords a.flavor hit.element
      let offered := Completion.filterBy order score typed (keywords.map .ofKeyword)
      if offered.isEmpty then
        Completion.filterBy order score typed (a.symbolCompletions hit.element)
      else offered
    | .node k cs => (a.hiddenKeywords (.node k cs) hit.index).map .ofKeyword

end Scores

/-- The completions at a position, closest first. -/
def completions (position : Position) : List Completion :=
  a.completionsBy Completion.shorter Completion.labelLength position

end Analysis

end QuestScript
