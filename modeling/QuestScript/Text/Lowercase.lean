import QuestScript.Text.LetterCase

/-! # Lowercase text

Names are compared by the lowercase of their characters, one by one. The lowercase of a whole text
differs from that in one place: a capital sigma at the end of a word becomes a final sigma. Both map
ASCII letters as expected and leave other ASCII characters alone. -/

namespace QuestScript

namespace LetterCase

/-- The character with a code point belongs to the run. -/
def Run.contains (r : Run) (code : Nat) : Bool :=
  r.first ≤ code && code ≤ r.last && (code - r.first) % r.stride == 0

/-- The lowercase of a character. Only the dotted capital I has one of two characters. -/
def lower (c : Char) : List Char :=
  if c.toNat < 0x80 then [c.toLower]
  else if c = '\u0130' then ['i', '\u0307']
  else match lowercaseRuns.find? (·.contains c.toNat) with
    | some r => [Char.ofNat (r.lower + (c.toNat - r.first))]
    | none => [c]

/-- The character lies in one of the ranges. -/
def inRanges (ranges : List (Nat × Nat)) (c : Char) : Bool :=
  ranges.any fun (first, last) => first ≤ c.toNat && c.toNat ≤ last

/-- The first character that is not case-ignorable is a cased letter. -/
def startsCased (text : List Char) : Bool :=
  match text.find? (!inRanges ignorableRanges ·) with
  | some c => inRanges casedRanges c
  | none => false

/-- The lowercase of a capital sigma between two texts, the first of which is given backwards: at
the end of a word it takes its final form. -/
def lowerSigma (before after : List Char) : Char :=
  if startsCased before && !startsCased after then 'ς' else 'σ'

/-- The lowercase of a text that follows `before`, which is given backwards. -/
def lowerAfter (before : List Char) : List Char → List Char
  | [] => []
  | c :: text =>
    (if c = 'Σ' then [lowerSigma before text] else lower c) ++ lowerAfter (c :: before) text

end LetterCase

/-- The lowercase of a text. -/
def lowercase (text : String) : String :=
  String.ofList (LetterCase.lowerAfter [] text.toList)

/-- The names are equal but for the case of their letters. -/
def namesMatch (a b : String) : Bool :=
  a.toList.flatMap LetterCase.lower == b.toList.flatMap LetterCase.lower

end QuestScript
