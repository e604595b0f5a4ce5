import QuestScript.Flavor

/-! # Settings

What the user chooses: the flavor of the documents, the keyword spellings that need no warning and
how much is logged. -/

namespace QuestScript

/-- How much detail a log holds. -/
inductive LogLevel
  | debug | trace
deriving DecidableEq, Repr

namespace LogLevel

/-- The name of the level. -/
def name : LogLevel → String
  | debug => "DEBUG"
  | trace => "TRACE"

end LogLevel

/-- How much the user wants to be logged. -/
inductive TraceLevel
  | off | messages | verbose
deriving DecidableEq, Repr

namespace TraceLevel

instance : Inhabited TraceLevel := ⟨off⟩

/-- Every trace level. -/
def all : List TraceLevel := [off, messages, verbose]

/-- The word that selects the level. -/
def name : TraceLevel → String
  | off => "off"
  | messages => "messages"
  | verbose => "verbose"

/-- The trace level with a name. -/
def ofName? (name : String) : Option TraceLevel := all.find? (·.name == name)

/-- The most detailed log that is kept, if any. -/
def maxLevel? : TraceLevel → Option LogLevel
  | off => none
  | messages => some .debug
  | verbose => some .trace

end TraceLevel

/-- The user's choices. -/
structure Settings where
  /-- How much is logged. -/
  trace : TraceLevel := default
  /-- The flavor in which documents are read. -/
  flavor : Flavor := default
  /-- Keyword spellings that are accepted although they are not lowercase. -/
  alternateCasings : List String := []
deriving DecidableEq, Repr

instance : Inhabited Settings := ⟨⟨default, default, []⟩⟩

end QuestScript
