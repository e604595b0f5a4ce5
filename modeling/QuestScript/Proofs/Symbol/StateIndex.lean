import QuestScript.Proofs.Caret.Touch
import QuestScript.Proofs.Editor.Declaration
import QuestScript.Symbol.StateIndex
import Std.Data.HashMap.Lemmas

/-! # The index of states equals a scan

Each state that enters the table lengthens one bucket of the index by one number and leaves the others
alone (`StateTable.IsExact.push`). So the table finds under a key the states whose names have it as
their lowercase, in the order in which they entered (`StateTable.named_ofStates`). The names of states
are ASCII, which makes this the comparison by which states are renamed
(`Analysis.state_index_exact`). -/

namespace QuestScript

namespace StateTable
variable {table : StateTable}

/-- Under every key the index lists the states whose names have it as their lowercase. -/
structure IsExact (table : StateTable) : Prop where
  /-- The index holds only numbers of states. -/
  bounded : ∀ key, ∀ i ∈ table.bucket key, i < table.states.length
  /-- They are the numbers of the states with the name, in order. -/
  listed : ∀ key, (table.bucket key).filterMap (table.states[·]?) =
    table.states.filter (lowercase ·.name == key)

theorem bucket_push (table : StateTable) (s : StateSymbol) (key : String) :
    (table.push s).bucket key =
      table.bucket key ++ if lowercase s.name == key then [table.states.length] else [] := by
  rw [bucket, push, Std.HashMap.getD_insert]
  split
  · rename_i hkey
    rw [beq_iff_eq.mp hkey]
  · exact (List.append_nil _).symm

theorem isExact_empty : empty.IsExact where
  bounded key i hi := by
    rw [bucket, empty, Std.HashMap.getD_empty] at hi
    cases hi
  listed key := by
    rw [bucket, empty, Std.HashMap.getD_empty]
    rfl

/-- The number of the new state is the greatest, and enters the bucket of its name. -/
theorem IsExact.push (h : table.IsExact) (s : StateSymbol) : (table.push s).IsExact where
  bounded key i hi := by
    show i < (table.states ++ [s]).length
    rw [List.length_append, List.length_singleton]
    rw [bucket_push, List.mem_append] at hi
    rcases hi with hi | hi
    · exact Nat.lt_succ_of_lt (h.bounded key i hi)
    · split at hi
      · rw [List.mem_singleton.mp hi]
        exact Nat.lt_succ_self _
      · cases hi
  listed key := by
    have hold : (table.bucket key).filterMap ((table.states ++ [s])[·]?) =
        (table.bucket key).filterMap (table.states[·]?) :=
      List.filterMap_congr fun i hi => List.getElem?_append_left (h.bounded key i hi)
    show ((table.push s).bucket key).filterMap ((table.states ++ [s])[·]?) =
      (table.states ++ [s]).filter (lowercase ·.name == key)
    rw [bucket_push, List.filterMap_append, hold, h.listed, List.filter_append]
    congr 1
    split <;> rename_i hkey
    · simp [hkey]
    · simp [hkey]

theorem isExact_foldl (h : table.IsExact) (states : List StateSymbol) :
    (states.foldl StateTable.push table).IsExact := by
  induction states generalizing table with
  | nil => exact h
  | cons s states ih => exact ih (h.push s)

theorem states_foldl (table : StateTable) (states : List StateSymbol) :
    (states.foldl push table).states = table.states ++ states := by
  induction states generalizing table with
  | nil => exact (List.append_nil _).symm
  | cons s states ih =>
    rw [List.foldl_cons, ih]
    exact List.append_assoc ..

theorem isExact_ofStates (states : List StateSymbol) : (ofStates states).IsExact :=
  isExact_foldl isExact_empty states

theorem states_ofStates (states : List StateSymbol) : (ofStates states).states = states :=
  states_foldl empty states

/-- **The index finds what a scan for the lowercase of the name finds**, in the same order. -/
theorem named_ofStates (states : List StateSymbol) (name : String) :
    (ofStates states).named name = states.filter fun s => lowercase s.name == lowercase name := by
  rw [named, (isExact_ofStates states).listed, states_ofStates]

end StateTable

namespace Analysis

theorem pairwise_declaration_states (flavor : Flavor) (source : String) :
    (ofSource flavor source).catalog.states.Pairwise fun s s' =>
      s.declaration.index < s'.declaration.index := by
  have hindex := (TokenStream.pairwise_index_significant flavor source).sublist
    (map_declaration_sublist flavor source)
  rwa [List.pairwise_map] at hindex

/-- **The index of states equals a scan.** In any document and for any text, the table of its states
finds the states whose names match the text character by character, each once and in document order; the
first of them is what a look-up finds. They are the states whose declarations a renaming would take for
those of the name. -/
theorem state_index_exact (flavor : Flavor) (source query : String) :
    let a := ofSource flavor source
    let found := (StateTable.ofStates a.catalog.states).named query
    found = a.catalog.statesNamed query ∧
      found = a.catalog.states.filter (namesMatch ·.name query) ∧
      found.Pairwise (fun s s' => s.declaration.index < s'.declaration.index) ∧
      a.catalog.lookup? .state query = found.head?.map .state ∧
      found.map (·.declaration) = a.declarations query := by
  intro a found
  have hfound : found = a.catalog.statesNamed query := StateTable.named_ofStates ..
  have hscan : a.catalog.statesNamed query = a.catalog.states.filter (namesMatch ·.name query) :=
    statesNamed_eq flavor source query
  refine ⟨hfound, hfound.trans hscan, ?_, ?_, ?_⟩
  · rw [hfound, hscan]
    exact (pairwise_declaration_states flavor source).filter _
  · rw [hfound]
    rfl
  · rw [hfound]
    exact map_declaration_statesNamed flavor source query

end Analysis

end QuestScript
