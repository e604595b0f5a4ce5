import QuestScript.Json.Format
import QuestScript.Proofs.Json.Record

/-! # Settings and diagnostics survive JSON

What is written as JSON is read back unchanged (`ofJson?_toJson`, type by type): a record finds its fields
under the names it wrote them with, and an alternative is known by its name. Line and column numbers are
words of 32 bits (`Position.FitsWord`).

Settings are also written by hand, with fields missing, in any order or as arrays. `Settings.Denotes` says
which settings a value stands for without the reader, and `Settings.ofJson?_eq_some_iff` that the reader
accepts exactly these values. -/

namespace QuestScript

/-! ### Positions, spans and edits -/

namespace Position

/-- Line and column are numbers of 32 bits. -/
def FitsWord (p : Position) : Prop := p.line < 0x100000000 ∧ p.column < 0x100000000

theorem ofJson?_toJson {p : Position} (h : p.FitsWord) : ofJson? p.toJson = some p := by
  have hfields : p.toJson.fields? ["line", "character"] =
      some [some (.natural p.line), some (.natural p.column)] :=
    Json.fields?_ofMembers rfl (by decide)
  rw [ofJson?, hfields]
  simp [Json.word?, h.1, h.2]

end Position

namespace Span

/-- Both ends have numbers of 32 bits. -/
def FitsWord (s : Span) : Prop := s.start.FitsWord ∧ s.stop.FitsWord

theorem ofJson?_toJson {s : Span} (h : s.FitsWord) : ofJson? s.toJson = some s := by
  have hfields : s.toJson.fields? ["start", "end"] = some [some s.start.toJson, some s.stop.toJson] :=
    Json.fields?_ofMembers rfl (by decide)
  rw [ofJson?, hfields]
  simp [Position.ofJson?_toJson h.1, Position.ofJson?_toJson h.2]

end Span

namespace TextEdit

/-- The span edited has numbers of 32 bits. -/
def FitsWord (e : TextEdit) : Prop := e.range.FitsWord

theorem ofJson?_toJson {e : TextEdit} (h : e.FitsWord) : ofJson? e.toJson = some e := by
  have hfields : e.toJson.fields? ["range", "newText"] =
      some [some e.range.toJson, some (.ofText e.newText)] :=
    Json.fields?_ofMembers rfl (by decide)
  rw [ofJson?, hfields]
  simp [Span.ofJson?_toJson h]

end TextEdit

/-! ### Diagnostics -/

namespace QuickFix

/-- The spans edited have numbers of 32 bits. -/
def FitsWord (f : QuickFix) : Prop := ∀ e ∈ f.edits, e.FitsWord

theorem ofJson?_toJson {f : QuickFix} (h : f.FitsWord) : ofJson? f.toJson = some f := by
  have hfields : f.toJson.fields? ["title", "edits", "isPreferred"] =
      some [some (.ofText f.title), some (.array (f.edits.map TextEdit.toJson)),
        some (.bool f.isPreferred)] :=
    Json.fields?_ofMembers rfl (by decide)
  have hedits : (Json.array (f.edits.map TextEdit.toJson)).list? TextEdit.ofJson? = some f.edits :=
    Json.list?_map fun e he => TextEdit.ofJson?_toJson (h e he)
  rw [ofJson?, hfields]
  simp [hedits, Json.bool?]

end QuickFix

namespace QuickFixes

/-- The spans that the fixes edit have numbers of 32 bits. -/
def FitsWord (fixes : QuickFixes) : Prop := ∀ f ∈ fixes.toList, f.FitsWord

theorem ofJson?_toJson {fixes : QuickFixes} (h : fixes.FitsWord) :
    ofJson? fixes.toJson = some fixes := by
  cases fixes with
  | none => rfl
  | single fix =>
    have hfix := QuickFix.ofJson?_toJson (h fix List.mem_cons_self)
    exact congrArg (Option.map single) hfix
  | multiple fixes =>
    have hfixes := Json.list?_map fun f hf => QuickFix.ofJson?_toJson (h f hf)
    exact congrArg (Option.map multiple) hfixes

end QuickFixes

theorem Severity.ofJson?_eq_some_iff {j : Json} {s : Severity} :
    ofJson? j = some s ↔ Json.IsUnit s.name j :=
  Json.unit?_bind_find?_eq_some_iff fun s => by cases s <;> decide

namespace Diagnostic

/-- The range has numbers of 32 bits, and so have the spans that the fixes edit. -/
def FitsWord (d : Diagnostic) : Prop := d.range.FitsWord ∧ d.fixes.FitsWord

theorem ofJson?_toJson {d : Diagnostic} (h : d.FitsWord) : ofJson? d.toJson = some d := by
  have hfields : d.toJson.fields? ["range", "severity", "message", "fixes"] =
      some [some d.range.toJson, some (.ofText d.severity.name), some (.ofText d.message),
        some d.fixes.toJson] :=
    Json.fields?_ofMembers rfl (by decide)
  have hseverity : Severity.ofJson? (.ofText d.severity.name) = some d.severity :=
    Severity.ofJson?_eq_some_iff.mpr (.inl rfl)
  rw [ofJson?, hfields]
  simp [Span.ofJson?_toJson h.1, hseverity, QuickFixes.ofJson?_toJson h.2]

end Diagnostic

/-! ### Settings -/

theorem TraceLevel.ofJson?_eq_some_iff {j : Json} {level : TraceLevel} :
    ofJson? j = some level ↔ Json.IsUnit level.name j :=
  Json.unit?_bind_find?_eq_some_iff fun level => by cases level <;> decide

theorem Flavor.ofJson?_eq_some_iff {j : Json} {flavor : Flavor} :
    ofJson? j = some flavor ↔ Json.IsUnit flavor.name j :=
  Json.unit?_bind_find?_eq_some_iff fun flavor => by cases flavor <;> decide

namespace Settings

/-- What is said about a section with one value, of which `Value` says which values are right. What is
left out has its default, the section or the value in it. -/
inductive Section {α : Type} [Inhabited α] (name : String) (Value : Json → α → Prop) :
    Option Json → α → Prop
  | missing : Section name Value none default
  | empty {j : Json} (h : Json.Gives [name] j [none]) : Section name Value (some j) default
  | given {j v : Json} {a : α} (h : Json.Gives [name] j [some v]) (hvalue : Value v a) :
    Section name Value (some j) a

/-- The settings that a value stands for. -/
def Denotes (j : Json) (s : Settings) : Prop :=
  ∃ trace language diagnostics,
    Json.Gives ["trace", "language", "diagnostics"] j [trace, language, diagnostics] ∧
    Section "server" (fun j (level : TraceLevel) => Json.IsUnit level.name j) trace s.trace ∧
    Section "flavor" (fun j (flavor : Flavor) => Json.IsUnit flavor.name j) language s.flavor ∧
    Section "alternateKeywordCasings" (fun j casings => j = .array (casings.map .ofText)) diagnostics
      s.alternateCasings

theorem casings_eq_some_iff {j : Json} {casings : List String} :
    j.list? Json.text? = some casings ↔ j = .array (casings.map .ofText) := by
  constructor
  · intro h
    obtain ⟨items, rfl, hitems⟩ := Json.list?_eq_some_iff.mp h
    refine congrArg _ ?_
    rw [← List.forall₂_eq_eq_eq, List.forall₂_map_right_iff]
    exact hitems.imp fun _ _ => Json.text?_eq_some_iff.mp
  · rintro rfl
    exact Json.list?_map fun _ _ => rfl

theorem orDefault_sectionOf_eq_some_iff {α : Type} [Inhabited α] {name : String}
    {f : Json → Option α} {Value : Json → α → Prop} (hf : ∀ {j a}, f j = some a ↔ Value j a)
    {value : Option Json} {a : α} :
    orDefault (sectionOf name f) value = some a ↔ Section name Value value a := by
  constructor
  · intro h
    cases value with
    | none =>
      obtain rfl := Option.some.inj h
      exact .missing
    | some j =>
      obtain ⟨values, hfields, h⟩ := Option.bind_eq_some_iff.mp h
      have hgives := Json.fields?_eq_some_iff.mp hfields
      split at h
      · rename_i value
        cases value with
        | none =>
          obtain rfl := Option.some.inj h
          exact .empty hgives
        | some v => exact .given hgives (hf.mp h)
      · cases h
  · intro h
    cases h with
    | missing => rfl
    | @empty j h => rw [orDefault, sectionOf, Json.fields?_eq_some_iff.mpr h]; rfl
    | @given j v a h hvalue =>
      rw [orDefault, sectionOf, Json.fields?_eq_some_iff.mpr h]
      exact hf.mpr hvalue

/-- **The reader accepts the values that stand for settings**, and reads the settings they stand for. -/
theorem ofJson?_eq_some_iff {j : Json} {s : Settings} : ofJson? j = some s ↔ Denotes j s := by
  rw [ofJson?, Option.bind_eq_bind, Option.bind_eq_some_iff]
  constructor
  · rintro ⟨values, hfields, h⟩
    have hgives := Json.fields?_eq_some_iff.mp hfields
    split at h
    · rename_i trace language diagnostics
      obtain ⟨level, hlevel, h⟩ := Option.bind_eq_some_iff.mp h
      obtain ⟨flavor, hflavor, h⟩ := Option.bind_eq_some_iff.mp h
      obtain ⟨casings, hcasings, h⟩ := Option.bind_eq_some_iff.mp h
      obtain rfl := Option.some.inj h
      exact ⟨trace, language, diagnostics, hgives,
        (orDefault_sectionOf_eq_some_iff TraceLevel.ofJson?_eq_some_iff).mp hlevel,
        (orDefault_sectionOf_eq_some_iff Flavor.ofJson?_eq_some_iff).mp hflavor,
        (orDefault_sectionOf_eq_some_iff casings_eq_some_iff).mp hcasings⟩
    · cases h
  · rintro ⟨trace, language, diagnostics, hgives, htrace, hlanguage, hdiagnostics⟩
    refine ⟨_, Json.fields?_eq_some_iff.mpr hgives, ?_⟩
    dsimp only
    rw [(orDefault_sectionOf_eq_some_iff TraceLevel.ofJson?_eq_some_iff).mpr htrace,
      (orDefault_sectionOf_eq_some_iff Flavor.ofJson?_eq_some_iff).mpr hlanguage,
      (orDefault_sectionOf_eq_some_iff casings_eq_some_iff).mpr hdiagnostics]
    rfl

theorem denotes_toJson (s : Settings) : Denotes s.toJson s := by
  have hfields : s.toJson.fields? ["trace", "language", "diagnostics"] =
      some [some (.ofMembers [("server", .ofText s.trace.name)]),
        some (.ofMembers [("flavor", .ofText s.flavor.name)]),
        some (.ofMembers
          [("alternateKeywordCasings", .array (s.alternateCasings.map .ofText))])] :=
    Json.fields?_ofMembers rfl (by decide)
  have hsection : ∀ name value,
      Json.Gives [name] (.ofMembers [(name, value)]) [some value] := fun name value =>
    Json.fields?_eq_some_iff.mp (Json.fields?_ofMembers rfl (List.nodup_singleton name))
  exact ⟨_, _, _, Json.fields?_eq_some_iff.mp hfields, .given (hsection _ _) (.inl rfl),
    .given (hsection _ _) (.inl rfl), .given (hsection _ _) rfl⟩

end Settings

/-- **Nothing is lost in JSON.** What a value is written as is read back as that value, where line and
column numbers have 32 bits. The values that are read as settings are those that stand for some: objects in
which fields may be missing and others added, and arrays of the leading fields, at each level. What the
settings read are written as stands for the same settings. -/
theorem json_round_trip :
    (∀ s : Settings, Settings.ofJson? s.toJson = some s) ∧
      (∀ s : Span, s.FitsWord → Span.ofJson? s.toJson = some s) ∧
      (∀ e : TextEdit, e.FitsWord → TextEdit.ofJson? e.toJson = some e) ∧
      (∀ fixes : QuickFixes, fixes.FitsWord → QuickFixes.ofJson? fixes.toJson = some fixes) ∧
      (∀ d : Diagnostic, d.FitsWord → Diagnostic.ofJson? d.toJson = some d) ∧
      (∀ j s, Settings.ofJson? j = some s ↔ Settings.Denotes j s) ∧
      ∀ j s, Settings.Denotes j s →
        Settings.Denotes s.toJson s ∧ ∀ s', Settings.Denotes s.toJson s' → s' = s := by
  have hsettings : ∀ s : Settings, Settings.ofJson? s.toJson = some s := fun s =>
    Settings.ofJson?_eq_some_iff.mpr s.denotes_toJson
  refine ⟨hsettings, fun _ => Span.ofJson?_toJson, fun _ => TextEdit.ofJson?_toJson,
    fun _ => QuickFixes.ofJson?_toJson, fun _ => Diagnostic.ofJson?_toJson,
    fun _ _ => Settings.ofJson?_eq_some_iff, fun _ s _ => ⟨s.denotes_toJson, fun s' h => ?_⟩⟩
  have hread := Settings.ofJson?_eq_some_iff.mpr h
  rw [hsettings s] at hread
  exact (Option.some.inj hread).symm

/-- Settings given as an array of leading fields, the second of them an object without its field, and a
warning with a fix. -/
theorem json_round_trip_verbose :
    let j := Json.array [.array [.ofText "verbose"], .ofMembers [("name", .null)]]
    let s : Settings := ⟨.verbose, .eoserv, []⟩
    let fix : QuickFix := ⟨"Lowercase", [⟨⟨⟨0, 0⟩, ⟨0, 5⟩⟩, "state"⟩], true⟩
    let d : Diagnostic := ⟨⟨⟨0, 0⟩, ⟨0, 5⟩⟩, .warning, "Keyword", .single fix⟩
    Settings.Denotes s.toJson s ∧ Settings.ofJson? j = some s ∧ Diagnostic.ofJson? d.toJson = some d := by
  intro j s fix d
  obtain ⟨-, -, -, -, hdiagnostic, hiff, hdenotes⟩ := json_round_trip
  have hread : Settings.ofJson? j = some s := by decide +kernel
  have hrange : Span.FitsWord ⟨⟨0, 0⟩, ⟨0, 5⟩⟩ := ⟨⟨by decide, by decide⟩, by decide, by decide⟩
  refine ⟨(hdenotes j s ((hiff j s).mp hread)).1, hread, hdiagnostic d ⟨hrange, fun f hf e he => ?_⟩⟩
  obtain rfl := List.mem_singleton.mp hf
  obtain rfl := List.mem_singleton.mp he
  exact hrange

end QuestScript
