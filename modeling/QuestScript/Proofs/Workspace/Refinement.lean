import QuestScript.Proofs.Workspace.History

/-! # A workspace holds what its history says

Looking something up after an event tells nothing but what the event is about; every other document
is found as before. So a workspace reflects its history: `Reflects` holds at the start, and every event
keeps it (`Reflects.after`). What editors see of a workspace is then a function of the events
(`run_refines`). -/

namespace QuestScript.Workspace

variable {w : Workspace} {settings initial : Settings} {uri other source : String}

/-! ### Looking up after an event -/

theorem mem_files : uri ∈ w.files ↔ (w.analysis? uri).isSome := by
  rw [files, analysis?, Option.isSome_map, List.find?_isSome, List.mem_map]
  simp only [beq_iff_eq]

theorem has_iff : w.has uri = true ↔ uri ∈ w.files := by
  rw [has, files, List.any_eq_true, List.mem_map]
  simp only [beq_iff_eq]

theorem files_setSettings : (w.setSettings settings).files = w.files := by
  rw [setSettings]
  split
  · rfl
  · rw [files, List.map_map]
    rfl

theorem analysis?_setSettings : (w.setSettings settings).analysis? uri =
    if settings.flavor = w.settings.flavor then w.analysis? uri
    else (w.analysis? uri).map fun a => .ofSource settings.flavor a.source := by
  rw [setSettings]
  split
  · rfl
  · rw [analysis?, analysis?, List.find?_map, Option.map_map, Option.map_map]
    rfl

theorem files_openDocument : (w.openDocument uri source).files =
    if uri ∈ w.files then w.files else w.files ++ [uri] := by
  simp only [openDocument, has_iff]
  split
  · rw [files, List.map_map]
    refine List.map_congr_left fun d _ => ?_
    rw [Function.comp_apply]
    split
    · rename_i h
      exact h.symm
    · rfl
  · rw [files, List.map_append]
    rfl

theorem analysis?_openDocument : (w.openDocument uri source).analysis? other =
    if uri = other then some (.ofSource w.settings.flavor source) else w.analysis? other := by
  simp only [openDocument, has_iff]
  split
  · rename_i hopen
    have hname : ((fun d : String × Analysis => d.1 == other) ∘ fun d =>
        if d.1 = uri then (uri, .ofSource w.settings.flavor source) else d) = fun d => d.1 == other := by
      funext d
      by_cases hd : d.1 = uri <;> simp [hd]
    rw [analysis?, List.find?_map, hname, Option.map_map]
    split
    · rename_i hother
      subst hother
      rw [mem_files, analysis?, Option.isSome_map] at hopen
      obtain ⟨d, hd⟩ := Option.isSome_iff_exists.mp hopen
      have hname : d.1 = uri := by simpa using List.find?_some hd
      rw [hd, Option.map_some, Function.comp_apply, if_pos hname]
    · rename_i hother
      refine Option.map_congr fun d hd => ?_
      have hname : d.1 = other := by simpa using List.find?_some hd
      rw [Function.comp_apply, if_neg (hname ▸ Ne.symm hother)]
  · rename_i hclosed
    rw [analysis?, List.find?_append]
    split
    · rename_i hother
      subst hother
      rw [mem_files, analysis?, Option.isSome_map, Option.not_isSome_iff_eq_none] at hclosed
      simp [hclosed]
    · rename_i hother
      simp [analysis?, hother]

theorem files_close : (w.close uri).files = w.files.filter (· != uri) := by
  rw [files, close, files, List.filter_map]
  rfl

theorem analysis?_close :
    (w.close uri).analysis? other = if uri = other then none else w.analysis? other := by
  rw [analysis?, close, List.find?_filter]
  split
  · rename_i hother
    subst hother
    rw [Option.map_eq_none_iff, List.find?_eq_none]
    simp
  · rename_i hother
    rw [analysis?]
    congr 2
    funext d
    by_cases hd : d.1 = other <;> simp [hd, Ne.symm hother]

/-! ### What a workspace reflects -/

/-- The workspace holds what the events say: the settings chosen last, and the documents that are
open, in the order in which they were opened, each as it is analyzed afresh in the chosen flavor. -/
structure Reflects (w : Workspace) (initial : Settings) (events : List Event) : Prop where
  /-- The settings are those chosen last. -/
  settings : w.settings = lastSettings initial events
  /-- The documents stand in the order in which they were opened. -/
  ordered : w.files.Pairwise (OpenedBefore events)
  /-- The document is analyzed from the text given last. -/
  analysis : ∀ uri, w.analysis? uri = (content? events uri).map (.ofSource w.settings.flavor)

namespace Reflects
variable {events : List Event} (h : w.Reflects initial events)
include h

theorem mem_files_iff : uri ∈ w.files ↔ (content? events uri).isSome := by
  rw [mem_files, h.analysis, Option.isSome_map]

theorem nodup : w.files.Nodup := by
  refine h.ordered.imp ?_
  rintro uri _ ⟨i, j, hi, hj, hlt⟩ rfl
  exact hi.not_lt hj hlt

/-- What the user is told about a document is what a fresh analysis of its text finds. -/
theorem diagnostics_eq : w.diagnostics uri = match content? events uri with
    | some source => analyze w.settings.flavor source w.settings.alternateCasings
    | none => [] := by
  rw [diagnostics, h.analysis]
  cases content? events uri <;> rfl

theorem ordered_snoc {e : Event} (he : ∀ uri ∈ w.files, e ≠ .removal uri) :
    w.files.Pairwise (OpenedBefore (events ++ [e])) :=
  h.ordered.imp_of_mem fun huri hother hlt => hlt.snoc (he _ huri) (he _ hother)

theorem setSettings : (w.setSettings settings).Reflects initial (events ++ [.settings settings]) where
  settings := by
    rw [lastSettings_snoc, Workspace.setSettings]
    split <;> rfl
  ordered := by
    rw [files_setSettings]
    exact h.ordered_snoc (by simp)
  analysis uri := by
    have hsettings : (w.setSettings settings).settings = settings := by
      rw [Workspace.setSettings]
      split <;> rfl
    rw [analysis?_setSettings, h.analysis, content?_snoc, hsettings]
    split
    · rename_i hflavor
      rw [hflavor]
      rfl
    · rw [Option.map_map]
      rfl

theorem openDocument : (w.openDocument uri source).Reflects initial (events ++ [.text uri source]) where
  settings := by
    rw [lastSettings_snoc, Workspace.openDocument]
    split <;> exact h.settings
  ordered := by
    have hfiles := h.ordered_snoc (e := .text uri source) (by simp)
    rw [files_openDocument]
    split
    · exact hfiles
    · rename_i hclosed
      rw [h.mem_files_iff, Option.not_isSome_iff_eq_none] at hclosed
      refine List.pairwise_append.mpr ⟨hfiles, List.pairwise_singleton _ _, ?_⟩
      intro other hother _ huri
      obtain ⟨i, hi⟩ := exists_openedAt (h.mem_files_iff.mp hother)
      rw [List.mem_singleton.mp huri]
      exact ⟨i, events.length, hi.snoc (by simp), openedAt_length hclosed, hi.lt_length⟩
  analysis other := by
    have hsettings : (w.openDocument uri source).settings = w.settings := by
      rw [Workspace.openDocument]
      split <;> rfl
    rw [analysis?_openDocument, h.analysis, content?_snoc, hsettings, Event.content?]
    split <;> rfl

theorem close : (w.close uri).Reflects initial (events ++ [.removal uri]) where
  settings := by
    rw [lastSettings_snoc]
    exact h.settings
  ordered := by
    rw [files_close]
    refine (h.ordered.filter _).imp_of_mem fun hother hlater hlt => ?_
    have hne : ∀ v ∈ w.files.filter (· != uri), Event.removal uri ≠ .removal v := by
      intro v hv heq
      simp [Event.removal.inj heq] at hv
    exact hlt.snoc (hne _ hother) (hne _ hlater)
  analysis other := by
    rw [analysis?_close, h.analysis, content?_snoc, Event.content?]
    split <;> rfl

/-- **Every event keeps what a workspace reflects.** -/
theorem after (e : Event) : (w.after e).Reflects initial (events ++ [e]) := by
  cases e with
  | settings settings => exact h.setSettings
  | text uri source => exact h.openDocument
  | removal uri => exact h.close

end Reflects

/-- **A workspace reflects the events that made it.** -/
theorem reflects_run (initial : Settings) (events : List Event) :
    (run initial events).Reflects initial events := by
  induction events using List.reverseRecOn with
  | nil => exact ⟨rfl, List.Pairwise.nil, fun _ => rfl⟩
  | append_singleton events e ih =>
    rw [run, List.foldl_append]
    exact ih.after e

/-- **A workspace is a map of open documents.** After any events its settings are those chosen last,
its documents are those that were opened and not removed since, each once and in the order of
opening, and each is analyzed as its last text is in the chosen flavor, whatever was done in between.
Choosing settings and giving a document another text change no order, and a removal says whether the
document was open and leaves the others alone. -/
theorem run_refines (initial : Settings) (events : List Event) :
    let w := run initial events
    w.settings = lastSettings initial events ∧
    (∀ uri, uri ∈ w.files ↔ ∃! i, OpenedAt events uri i) ∧
    w.files.Nodup ∧ w.files.Pairwise (OpenedBefore events) ∧
    (∀ uri, w.analysis? uri = (content? events uri).map (.ofSource w.settings.flavor)) ∧
    (∀ uri a, w.analysis? uri = some a →
      content? events uri = some a.source ∧ a.flavor = w.settings.flavor ∧
        a.parse = parse w.settings.flavor a.source ∧ a.catalog = .ofParse a.parse ∧
        ∀ p, a.referenceKind? p = (Analysis.ofSource w.settings.flavor a.source).referenceKind? p) ∧
    (∀ uri, w.diagnostics uri = match content? events uri with
      | some source => analyze w.settings.flavor source w.settings.alternateCasings
      | none => []) ∧
    (∀ settings, (w.setSettings settings).files = w.files) ∧
    (∀ uri source, (w.openDocument uri source).files =
      if (content? events uri).isSome then w.files else w.files ++ [uri]) ∧
    ∀ uri, ((w.remove uri).1 = true ↔ (content? events uri).isSome) ∧
      (w.remove uri).2.files = w.files.erase uri ∧
      (w.remove uri).2.settings = w.settings ∧
      ∀ other, other ≠ uri → (w.remove uri).2.analysis? other = w.analysis? other := by
  intro w
  have h : w.Reflects initial events := reflects_run initial events
  refine ⟨h.settings, ?_, h.nodup, h.ordered, h.analysis, ?_, fun uri => h.diagnostics_eq,
    fun _ => files_setSettings, ?_, fun uri => ⟨?_, ?_, rfl, ?_⟩⟩
  · exact fun uri => h.mem_files_iff.trans isSome_content?_iff
  · intro uri a ha
    rw [h.analysis] at ha
    obtain ⟨source, hsource, rfl⟩ := Option.map_eq_some_iff.mp ha
    exact ⟨hsource, rfl, rfl, rfl, fun _ => rfl⟩
  · intro uri source
    simp only [files_openDocument, h.mem_files_iff]
  · exact has_iff.trans h.mem_files_iff
  · rw [h.nodup.erase_eq_filter]
    exact files_close
  · intro other hother
    exact analysis?_close.trans (if_neg hother.symm)

end QuestScript.Workspace
