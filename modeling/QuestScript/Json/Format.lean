import QuestScript.Diagnostic.Basic
import QuestScript.Json.Value
import QuestScript.Settings

/-! # The JSON form of settings and diagnostics

How the values that an editor and the analysis exchange are written as JSON, and how they are read
back. A record is written as an object; it may also be read from an array of its fields in order.
All fields of a record are required, those of settings excepted: what is left out there has its
default. -/

namespace QuestScript

/-! ### Positions, spans and edits -/

namespace Position

/-- The JSON form of a position. -/
def toJson (p : Position) : Json :=
  .ofMembers [("line", .natural p.line), ("character", .natural p.column)]

/-- The position that a JSON value stands for. -/
def ofJson? (j : Json) : Option Position := do
  let [some line, some column] ← j.fields? ["line", "character"] | none
  return ⟨← line.word?, ← column.word?⟩

end Position

namespace Span

/-- The JSON form of a span. -/
def toJson (s : Span) : Json := .ofMembers [("start", s.start.toJson), ("end", s.stop.toJson)]

/-- The span that a JSON value stands for. -/
def ofJson? (j : Json) : Option Span := do
  let [some start, some stop] ← j.fields? ["start", "end"] | none
  return ⟨← Position.ofJson? start, ← Position.ofJson? stop⟩

end Span

namespace TextEdit

/-- The JSON form of an edit. -/
def toJson (e : TextEdit) : Json :=
  .ofMembers [("range", e.range.toJson), ("newText", .ofText e.newText)]

/-- The edit that a JSON value stands for. -/
def ofJson? (j : Json) : Option TextEdit := do
  let [some range, some newText] ← j.fields? ["range", "newText"] | none
  return ⟨← Span.ofJson? range, ← newText.text?⟩

end TextEdit

/-! ### Diagnostics -/

namespace QuickFix

/-- The JSON form of a fix. -/
def toJson (f : QuickFix) : Json :=
  .ofMembers [("title", .ofText f.title), ("edits", .array (f.edits.map TextEdit.toJson)),
    ("isPreferred", .bool f.isPreferred)]

/-- The fix that a JSON value stands for. -/
def ofJson? (j : Json) : Option QuickFix := do
  let [some title, some edits, some preferred] ← j.fields? ["title", "edits", "isPreferred"] | none
  return ⟨← title.text?, ← edits.list? TextEdit.ofJson?, ← preferred.bool?⟩

end QuickFix

namespace QuickFixes

/-- The JSON form of the fixes of a diagnostic. -/
def toJson : QuickFixes → Json
  | none => .ofText "NoFix"
  | single fix => .ofMembers [("SingleFix", fix.toJson)]
  | multiple fixes => .ofMembers [("MultipleFixes", .array (fixes.map QuickFix.toJson))]

/-- The fixes that a JSON value stands for. -/
def ofJson? (j : Json) : Option QuickFixes := do
  match ← j.alternative? with
  | ("NoFix", _) => if j.unit?.isSome then some none else failure
  | ("SingleFix", some fix) => (QuickFix.ofJson? fix).map single
  | ("MultipleFixes", some fixes) => (fixes.list? QuickFix.ofJson?).map multiple
  | _ => failure

end QuickFixes

namespace Severity

/-- The severity that a JSON value stands for. -/
def ofJson? (j : Json) : Option Severity := do
  let name ← j.unit?
  all.find? (·.name == name)

end Severity

namespace Diagnostic

/-- The JSON form of a diagnostic. -/
def toJson (d : Diagnostic) : Json :=
  .ofMembers [("range", d.range.toJson), ("severity", .ofText d.severity.name),
    ("message", .ofText d.message), ("fixes", d.fixes.toJson)]

/-- The diagnostic that a JSON value stands for. -/
def ofJson? (j : Json) : Option Diagnostic := do
  let [some range, some severity, some message, some fixes] ←
    j.fields? ["range", "severity", "message", "fixes"] | none
  return ⟨← Span.ofJson? range, ← Severity.ofJson? severity, ← message.text?,
    ← QuickFixes.ofJson? fixes⟩

end Diagnostic

/-! ### Settings -/

namespace TraceLevel

/-- The trace level that a JSON value stands for. -/
def ofJson? (j : Json) : Option TraceLevel := do ofName? (← j.unit?)

end TraceLevel

namespace Flavor

/-- The flavor that a JSON value stands for. Here its name has to be in lowercase. -/
def ofJson? (j : Json) : Option Flavor := do
  let name ← j.unit?
  all.find? (·.name == name)

end Flavor

namespace Settings

/-- A value that may be left out. -/
def orDefault {α : Type} [Inhabited α] (f : Json → Option α) : Option Json → Option α
  | none => some default
  | some j => f j

/-- The only value of a section of the settings. -/
def sectionOf {α : Type} [Inhabited α] (name : String) (f : Json → Option α) (j : Json) :
    Option α := do
  let [value] ← j.fields? [name] | none
  orDefault f value

/-- The JSON form of settings. -/
def toJson (s : Settings) : Json :=
  .ofMembers
    [("trace", .ofMembers [("server", .ofText s.trace.name)]),
     ("language", .ofMembers [("flavor", .ofText s.flavor.name)]),
     ("diagnostics",
       .ofMembers [("alternateKeywordCasings", .array (s.alternateCasings.map .ofText))])]

/-- The settings that a JSON value stands for. -/
def ofJson? (j : Json) : Option Settings := do
  let [trace, language, diagnostics] ← j.fields? ["trace", "language", "diagnostics"] | none
  return {
    trace := ← orDefault (sectionOf "server" TraceLevel.ofJson?) trace
    flavor := ← orDefault (sectionOf "flavor" Flavor.ofJson?) language
    alternateCasings :=
      ← orDefault (sectionOf "alternateKeywordCasings" (·.list? Json.text?)) diagnostics }

end Settings

end QuestScript
