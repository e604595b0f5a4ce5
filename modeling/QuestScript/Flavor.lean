import QuestScript.Text.Ascii

/-! # Flavors

A quest document is written for one of two quest engines. Both share most of the language; the
flavor decides which words are keywords, which statements exist and which rules and actions are
built in. -/

namespace QuestScript

/-- The engine a quest document is written for. -/
inductive Flavor
  /-- The official quest engine. -/
  | official
  /-- The EOSERV server emulator. -/
  | eoserv
deriving DecidableEq, Repr

namespace Flavor

/-- Documents are taken to be EOSERV quests unless settings say otherwise. -/
instance : Inhabited Flavor := ⟨eoserv⟩

/-- Every flavor, in the order in which names are tried. -/
def all : List Flavor := [official, eoserv]

/-- The name by which settings select the flavor. -/
def name : Flavor → String
  | official => "official"
  | eoserv => "eoserv"

end Flavor

/-- A name that no flavor has. -/
structure UnknownFlavor where
  /-- The name as given. -/
  name : String
deriving DecidableEq, Repr

namespace UnknownFlavor

/-- The wording of the failure, which quotes the name. -/
def message (e : UnknownFlavor) : String :=
  s!"unknown EO+ flavor '{e.name}' (expected 'official' or 'eoserv')"

end UnknownFlavor

namespace Flavor

/-- The flavor called `name`, in any ASCII letter case. -/
def ofName (name : String) : Except UnknownFlavor Flavor :=
  match all.find? fun flavor => Ascii.sameWord flavor.name.toList name.toList with
  | some flavor => .ok flavor
  | none => .error ⟨name⟩

theorem mem_all (flavor : Flavor) : flavor ∈ all := by
  cases flavor <;> simp [all]

end Flavor

end QuestScript
