import QuestScript.Symbol.Catalog
import Std.Data.HashMap

/-! # The index of states

The states of a document with an index from the lowercase of a name to the numbers of the states that
have it. The table is filled state by state, as the blocks are met in the document. -/

namespace QuestScript

/-- The states of a document, indexed by name. -/
structure StateTable where
  /-- The states, in document order. -/
  states : List StateSymbol
  /-- The numbers of the states with a name, under the lowercase of the name. -/
  index : Std.HashMap String (List Nat)

namespace StateTable

/-- The table without any state. -/
def empty : StateTable := ⟨[], ∅⟩

/-- The numbers under a key. -/
def bucket (table : StateTable) (key : String) : List Nat := table.index.getD key []

/-- The table with one more state. -/
def push (table : StateTable) (s : StateSymbol) : StateTable :=
  ⟨table.states ++ [s],
    table.index.insert (lowercase s.name) (table.bucket (lowercase s.name) ++ [table.states.length])⟩

/-- The table of the states in a list. -/
def ofStates (states : List StateSymbol) : StateTable := states.foldl push empty

/-- The states with a name, in document order. -/
def named (table : StateTable) (name : String) : List StateSymbol :=
  (table.bucket (lowercase name)).filterMap (table.states[·]?)

end StateTable

end QuestScript
