import QuestScript.Symbol.Basic

/-! # Built-in rules

The conditions that the quest engines provide. Their order matters: a look-up takes the first match,
and editors list rules as they stand here. -/

namespace QuestScript.Builtin

/-- The player statistics that an EOSERV rule may ask about. -/
def expressionStatNames : String :=
  "`npc`, `level`, `experience`, `hp`, `maxhp`, `tp`, `maxtp`, `maxsp`, `weight`, " ++
  "`maxweight`, `karma`, `mindam`, `maxdam`, `damage`, `critical`, `str`, `int`, `wis`, " ++
  "`agi`, `con`, `cha`, `base_str`, `base_int`, `base_wis`, `base_agi`, `base_con`, " ++
  "`base_cha`, `display_str`, `display_int`, `display_wis`, `display_agi`, `display_con`, " ++
  "`display_cha`, `accuracy`, `evade`, `armor`, `bot`, `usage`, `class`, `gender`, `race`, " ++
  "`hairstyle`, `haircolor`, `mapid`, `x`, `y`, `direction`, `sitting`, `hidden`, `whispers`, " ++
  "`goldbank`, `statpoints`, `skillpoints`"

/-- The rules of both flavors. -/
def sharedRules : List Builtin := [
  { kind := .rule
    name := "InputNpc"
    documentation :=
      "Triggered when the player clicks a quest input with the specified `input_id`.\n\nUsed " ++
      "in conjunction with the `AddNpcInput` action."
    parameters := [
      .required "input_id" .integer "The ID of the dialogue input."] },
  { kind := .rule
    name := "TalkedToNpc"
    documentation :=
      "Triggered after the player talks to a quest NPC with the specified " ++
      "`behavior_id`.\n\nUsed in conjunction with the `AddNpcText` action."
    parameters := [
      .required "behavior_id" .integer "The behavior ID of the quest NPC."] },
  { kind := .rule
    name := "Always"
    documentation :=
      "Triggered unconditionally after the quest state's actions are completed."
    parameters := [] },
  { kind := .rule
    name := "DoneDaily"
    documentation :=
      "Triggered if the player has completed the quest a specified number of times within the " ++
      "last day.\n\nUsed in conjunction with the `ResetDaily` action."
    parameters := [
      .required "completions" .integer
        "The number of times that the player must complete the quest within a day."] },
  { kind := .rule
    name := "EnterMap"
    documentation :=
      "Triggered when the player enters the specified map."
    parameters := [
      .required "map" .integer "The ID of the map that must be entered."] },
  { kind := .rule
    name := "EnterCoord"
    documentation :=
      "Triggered when the player enters the specified map coordinates."
    parameters := [
      .required "map" .integer "The ID of the map containing the specified coordinates.",
      .required "x" .integer "The X coordinate that must be entered.",
      .required "y" .integer "The Y coordinate that must be entered."] },
  { kind := .rule
    name := "LeaveMap"
    documentation :=
      "Triggered when the player leaves the specified map."
    parameters := [
      .required "map" .integer "The ID of the map that must be left."] },
  { kind := .rule
    name := "LeaveCoord"
    documentation :=
      "Triggered when the player leaves the specified map coordinates."
    parameters := [
      .required "map" .integer "The ID of the map containing the specified coordinates.",
      .required "x" .integer "The X coordinate that must be left.",
      .required "y" .integer "The Y coordinate that must be left."] },
  { kind := .rule
    name := "KilledNpcs"
    documentation :=
      "Triggered when the player kills a specified NPC."
    parameters := [
      .required "npc_id" .integer "The ID of the NPC that must be killed.",
      .optional "amount" .integer "The number of NPCs that must be killed."] },
  { kind := .rule
    name := "KilledPlayers"
    documentation :=
      "Triggered when the player kills a player."
    parameters := [
      .required "amount" .integer "The number of players that must be killed."] },
  { kind := .rule
    name := "GotItems"
    documentation :=
      "Triggered when a specified item is in the player's inventory."
    parameters := [
      .required "item_id" .integer
        "The ID of the item that must be in the player's inventory.",
      .optional "amount" .integer
        "The amount of the item that must be in the player's inventory."] },
  { kind := .rule
    name := "LostItems"
    documentation :=
      "Triggered when a specified item is not in the player's inventory."
    parameters := [
      .required "item_id" .integer
        "The ID of the item that must not be in the player's inventory.",
      .optional "amount" .integer
        "The amount of the item that must not be in the player's inventory."] }]

/-- The rules of EOSERV quests alone. -/
def eoservRules : List Builtin := [
  { kind := .rule
    name := "UsedItem"
    documentation :=
      "Triggered when a specified item is used."
    parameters := [
      .required "item_id" .integer "The ID of the item that must be used.",
      .optional "amount" .integer "The number of times that the item must be used"] },
  { kind := .rule
    name := "IsGender"
    documentation :=
      "Triggered if the player is the specified gender."
    parameters := [
      .required "gender_id" .integer
        "The ID of the gender that the player must be.\n\n`0`: Female\n`1`: Male"] },
  { kind := .rule
    name := "IsClass"
    documentation :=
      "Triggered if the player is the specified class."
    parameters := [
      .required "class_id" .integer "The ID of the class that the player must be."] },
  { kind := .rule
    name := "IsRace"
    documentation :=
      "Triggered if the player is the specified race."
    parameters := [
      .required "race_id" .integer "The ID of the race that the player must be."] },
  { kind := .rule
    name := "IsWearing"
    documentation :=
      "Triggered if the player has the specified item equipped."
    parameters := [
      .required "item_id" .integer "The ID of the item that the player must be wearing."] },
  { kind := .rule
    name := "GotSpell"
    documentation :=
      "Triggered when a specified spell is known by the player."
    parameters := [
      .required "spell_id" .integer "The ID of the spell that must be known by the player.",
      .optional "spell_level" .integer "The spell level requirement that must be met."] },
  { kind := .rule
    name := "LostSpell"
    documentation :=
      "Triggered when a specified spell is not known by the player."
    parameters := [
      .required "spell_id" .integer
        "The ID of the spell that must not be known by the player."] },
  { kind := .rule
    name := "UsedSpell"
    documentation :=
      "Triggered when a specified spell is used."
    parameters := [
      .required "spell_id" .integer "The ID of the spell that must be used.",
      .optional "amount" .integer "The number of times that the spell must be used."] },
  { kind := .rule
    name := "CitizenOf"
    documentation :=
      "Triggered if the player is a citizen of the specified home."
    parameters := [
      .required "home" .string "The name of the home that the player must be a citizen of."] },
  { kind := .rule
    name := "Rolled"
    documentation :=
      "Triggered when the `Roll` action generates the specified value."
    parameters := [
      .required "value" .integer "The value that the `Roll` action must generate."] },
  { kind := .rule
    name := "StatIs"
    documentation :=
      "Triggered when the specified player stat is the specified value."
    parameters := [
      .required "stat" .string
        ("The name of the stat. Options are: " ++
         expressionStatNames),
      .required "value" .integer "The value that the specified stat must be."] },
  { kind := .rule
    name := "StatNot"
    documentation :=
      "Triggered when the specified player stat is not the specified value."
    parameters := [
      .required "stat" .string
        ("The name of the stat. Options are: " ++
         expressionStatNames),
      .required "value" .integer "The value that the specified stat must not be."] },
  { kind := .rule
    name := "StatGreater"
    documentation :=
      "Triggered when the specified player stat is greater than the specified value."
    parameters := [
      .required "stat" .string
        ("The name of the stat. Options are: " ++
         expressionStatNames),
      .required "value" .integer "The value that the specified stat must be greater than."] },
  { kind := .rule
    name := "StatLess"
    documentation :=
      "Triggered when the specified player stat is less than the specified value."
    parameters := [
      .required "stat" .string
        ("The name of the stat. Options are: " ++
         expressionStatNames),
      .required "value" .integer "The value that the specified stat must be less than."] },
  { kind := .rule
    name := "StatBetween"
    documentation :=
      "Triggered when the specified player stat is between the specified values (inclusive)."
    parameters := [
      .required "stat" .string
        ("The name of the stat. Options are: " ++
         expressionStatNames),
      .required "min" .integer
        "The value that the specified stat must be greater than or equal to.",
      .required "max" .integer
        "The value that the specified stat must be less than or equal to."] },
  { kind := .rule
    name := "StatRpn"
    documentation :=
      "Triggered when the specified rpn expression evaluates to true."
    parameters := [
      .required "expression" .string
        ("An expression in [Reverse Polish " ++
         "notation](https://en.wikipedia.org/wiki/Reverse_Polish_notation) that must evaluate " ++
         "to true.\n\nPlayer stats may be referenced in the expression.\n Options are: " ++
         expressionStatNames)] }]

/-- The rules of a flavor, those of both flavors first. Official quests have no others. -/
def rules : Flavor → List Builtin
  | .official => sharedRules
  | .eoserv => sharedRules ++ eoservRules

end QuestScript.Builtin
