import QuestScript.Flavor

/-! # Keywords

The reserved words of the language, in the order of its vocabulary. A word is a keyword in any
ASCII letter case. The four conditional keywords belong to EOSERV alone: an official quest may use
them as names. -/

namespace QuestScript

/-- A reserved word. -/
inductive Keyword
  | main | state | questName | version | hidden | hiddenEnd | disabled | description
  | rule | action | goal | ifThen | elseIf | otherwise | goto
  | character | npc | map | world
deriving DecidableEq, Repr

namespace Keyword

/-- Every keyword, in vocabulary order. -/
def all : List Keyword :=
  [main, state, questName, version, hidden, hiddenEnd, disabled, description, rule, action, goal,
    ifThen, elseIf, otherwise, goto, character, npc, map, world]

/-- The keyword as it should be written. -/
def spelling : Keyword → String
  | main => "main"
  | state => "state"
  | questName => "questname"
  | version => "version"
  | hidden => "hidden"
  | hiddenEnd => "hidden_end"
  | disabled => "disabled"
  | description => "desc"
  | rule => "rule"
  | action => "action"
  | goal => "goal"
  | ifThen => "if"
  | elseIf => "elseif"
  | otherwise => "else"
  | goto => "goto"
  | character => "character"
  | npc => "npc"
  | map => "map"
  | world => "world"

/-- The spelling in capitals, the stem of the keyword's vocabulary names. -/
def capitals (k : Keyword) : String :=
  String.ofList (k.spelling.toList.map Char.toUpper)

/-- The flavor reserves the word. -/
def isReservedIn (k : Keyword) : Flavor → Bool
  | .eoserv => true
  | .official => !([goal, ifThen, elseIf, otherwise].contains k)

/-- The keyword a word stands for, in any ASCII letter case. -/
def ofWord? (flavor : Flavor) (word : List Char) : Option Keyword :=
  all.find? fun k => k.isReservedIn flavor && Ascii.sameWord k.spelling.toList word

theorem mem_all (k : Keyword) : k ∈ all := by
  cases k <;> decide

end Keyword

end QuestScript
