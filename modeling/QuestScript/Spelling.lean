import QuestScript.Text.Lowercase

/-! # Spelling suggestions

The candidate closest to a name that nothing is called. The distance of two names is the least cost
of turning one into the other: a character inserted or left out costs 1, a character replaced costs
2, or a tenth if only its case changes. The search fills one row of the distance table after the
other, and of each row only a band around the diagonal: what lies outside it is too far away.

The arithmetic of costs is a parameter. Names are compared with binary floating-point numbers, in
the order of operations given here; exact rational numbers serve to reason about the search. -/

namespace QuestScript

/-- Numbers that measure distances. -/
class Cost (α : Type) extends Add α, Sub α where
  /-- A whole number of steps. -/
  ofNat : Nat → α
  /-- The cost of changing a letter's case. -/
  tenth : α
  /-- The margin by which filler exceeds the greatest distance of interest. -/
  hundredth : α
  /-- The first cost is at most the second. -/
  atMost : α → α → Bool
  /-- The greatest number of steps that is at most the cost. -/
  floor : α → Nat
  /-- The least number of steps that is at least the cost. -/
  ceil : α → Nat

instance : Cost Float where
  ofNat := Float.ofNat
  tenth := 0.1
  hundredth := 0.01
  atMost a b := a ≤ b
  floor a := a.floor.toUInt64.toNat
  ceil a := a.ceil.toUInt64.toNat

namespace Spelling

variable {α : Type} [Cost α]

/-- The lesser of two costs. -/
def least (a b : α) : α := if Cost.atMost a b then a else b

/-- The characters have the same lowercase. -/
def sameLetter (a b : Char) : Bool := LetterCase.lower a == LetterCase.lower b

/-- The distance of two texts that end in `c` and `d`, from those of the texts without their last
characters (`both`), without `c` (`above`) and without `d` (`left`). -/
def cell (c d : Char) (both above left : α) : α :=
  if c = d then both
  else
    let replaced := both + (if sameLetter c d then Cost.tenth else Cost.ofNat 2)
    least (least (above + Cost.ofNat 1) (left + Cost.ofNat 1)) replaced

/-- The part of a row from column `j` on, where `left` stands in the column before. Columns outside
of `first` to `last` hold the filler. -/
def rowFrom (first last : Nat) (filler : α) (c : Char) :
    (j : Nat) → (left : α) → (previous : List α) → (target : List Char) → List α
  | j, left, both :: above :: previous, d :: target =>
    let here := if first ≤ j && j ≤ last then cell c d both above left else filler
    here :: rowFrom first last filler c (j + 1) here (above :: previous) target
  | _, _, _, _ => []

/-- The row of the `i`-th character `c`, from the row before. -/
def nextRow (max : α) (target : List Char) (i : Nat) (c : Char) (previous : List α) : List α :=
  let row : α := Cost.ofNat i
  let width := target.length
  let first := if Cost.atMost row max then 1 else Cost.ceil (row - max)
  let last :=
    if Cost.atMost (Cost.ofNat width) (max + row) then width else Cost.floor (max + row)
  row :: rowFrom first last (max + Cost.hundredth) c 1 row previous target

/-- The distance to `target` after the rows up to `i`, given the last of them and the characters to
come. The search ends with the first row that exceeds `max` everywhere. -/
def distanceFrom (max : α) (target : List Char) : (i : Nat) → List Char → List α → Option α
  | _, [], row => (row.getLast?).filter (Cost.atMost · max)
  | i, c :: source, row =>
    let row := nextRow max target (i + 1) c row
    if row.any (Cost.atMost · max) then distanceFrom max target (i + 1) source row else none

/-- The distance from `source` to `target` if it is at most `max`. -/
def distanceWithin (max : α) (source target : List Char) : Option α :=
  distanceFrom max target 0 source ((List.range (target.length + 1)).map Cost.ofNat)

/-- The lengths differ by no more than two characters or about a third of the name. -/
def similarLength (name candidate : List Char) : Bool :=
  let difference := (candidate.length - name.length) + (name.length - candidate.length)
  difference ≤ max 2 (name.length * 34 / 100)

/-- The candidate is worth comparing: it is another text of similar length and, if it has fewer than
three characters, differs from the name in letter case only. -/
def isEligible (name candidate : String) : Bool :=
  similarLength name.toList candidate.toList && candidate != name &&
    (3 ≤ candidate.toList.length || lowercase candidate == lowercase name)

/-- The best candidate so far and the distance that the next one has to undercut by a tenth. -/
structure Best (α : Type) where
  /-- The distance of the best candidate, or the bound to start with. -/
  bound : α
  /-- The best candidate. -/
  candidate : Option String

/-- The best candidate after one more. -/
def consider (name : String) (best : Best α) (candidate : String) : Best α :=
  if isEligible name candidate then
    match distanceWithin (best.bound - Cost.tenth) name.toList candidate.toList with
    | some distance => ⟨distance, some candidate⟩
    | none => best
  else best

/-- The candidate closest to the name, the first of several, if any is close enough. The distance
allowed grows with the length of the name. -/
def closest (α : Type) [Cost α] (name : String) (candidates : List String) : Option String :=
  let bound : α := Cost.ofNat (name.toList.length * 2 / 5 + 1)
  (candidates.foldl (consider name) ⟨bound, none⟩).candidate

end Spelling

/-- The candidate that was probably meant by the name. -/
def suggest (name : String) (candidates : List String) : Option String :=
  Spelling.closest Float name candidates

end QuestScript
