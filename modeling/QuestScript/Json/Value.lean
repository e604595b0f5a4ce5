/-! # JSON values

Values of the format in which editors store settings and send documents. A string may hold an escape
that stands for half a character, so that it spells no text; such a string is kept apart from all
texts. Numbers other than natural numbers are kept as written, as no document holds one. -/

namespace QuestScript

/-- A JSON value. Members of an object keep their order and may share a name. -/
inductive Json
  | null
  | bool (b : Bool)
  | natural (n : Nat)
  | number (literal : String)
  | string (text : Option String)
  | array (items : List Json)
  | object (members : List (Option String × Json))
deriving Repr

namespace Json

instance : Inhabited Json := ⟨null⟩

/-- The string of a text. -/
def ofText (s : String) : Json := string (some s)

/-- The object with the given members. -/
def ofMembers (members : List (String × Json)) : Json :=
  object (members.map fun (name, value) => (some name, value))

/-- The text of a string. -/
def text? : Json → Option String
  | string text => text
  | _ => none

/-- The truth value. -/
def bool? : Json → Option Bool
  | bool b => some b
  | _ => none

/-- The number, if it is a natural number of 32 bits. -/
def word? : Json → Option Nat
  | natural n => if n < 0x100000000 then some n else none
  | _ => none

/-- The items of an array, each of which `f` has to accept. -/
def list? {α : Type} (f : Json → Option α) : Json → Option (List α)
  | array items => items.mapM f
  | _ => none

/-- The value of the only member with a name: none if there is no such member, failure if there are
several. -/
def member? (members : List (Option String × Json)) (name : String) : Option (Option Json) :=
  match members.filter (·.1 == some name) with
  | [] => some none
  | [m] => some (some m.2)
  | _ => none

/-- The fields of a record, each if it is there: the members of an object by name, or the items of
an array in the order of the names. Members with other names are passed over. -/
def fields? (names : List String) : Json → Option (List (Option Json))
  | array items =>
    if items.length ≤ names.length then
      some (items.map some ++ List.replicate (names.length - items.length) none)
    else none
  | object members =>
    if members.all (·.1.isSome) then names.mapM (member? members) else none
  | _ => none

/-- The name of an alternative and what it holds: a string names an alternative alone, an object
with one member an alternative and its contents. -/
def alternative? : Json → Option (String × Option Json)
  | string (some name) => some (name, none)
  | object [(some name, contents)] => some (name, some contents)
  | _ => none

/-- The name of an alternative that holds nothing. -/
def unit? (j : Json) : Option String :=
  match j.alternative? with
  | some (name, none) | some (name, some null) => some name
  | _ => none

end Json

end QuestScript
