/-! # ASCII letter case

Fixed words of the language (keywords, flavor names) are recognized in any ASCII letter case; all
other letters must agree exactly. -/

namespace QuestScript.Ascii

/-- `a` and `b` agree up to the case of ASCII letters. -/
def sameWord (a b : List Char) : Bool :=
  a.map Char.toLower == b.map Char.toLower

theorem sameWord_comm (a b : List Char) : sameWord a b = sameWord b a := by
  simp [sameWord, Bool.beq_comm]

end QuestScript.Ascii
