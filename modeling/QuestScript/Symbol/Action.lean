import QuestScript.Symbol.Basic

/-! # Built-in actions

The actions that the quest engines provide. Their order matters: a look-up takes the first match,
and editors list actions as they stand here. -/

namespace QuestScript.Builtin

/-- The player statistics that an EOSERV action may change. -/
def statNames : String :=
  "`level`, `exp`, `str`, `int`, `wis`, `agi`, `con`, `cha`, `statpoints`, `skillpoints`, " ++
  "`admin`, `gender`, `hairstyle`, `haircolor`, `race`, `guildrank`, `karma`, `class`"

/-- The actions of both flavors. -/
def sharedActions : List Builtin := [
  { kind := .action
    name := "Reset"
    documentation :=
      "Resets the quest to the `begin` state and removes the quest from the player's quest " ++
      "log."
    parameters := [] },
  { kind := .action
    name := "ResetDaily"
    documentation :=
      "Resets the quest to the `begin` state and removes the quest from the player's quest " ++
      "log.\n\n`ResetDaily` should be used when the player has completed a daily quest. It's " ++
      "used in conjunction with the `DoneDaily` rule to track how many times a player has " ++
      "completed the quest that day."
    parameters := [] },
  { kind := .action
    name := "End"
    documentation :=
      "Removes the quest from the player's quest log.\n\n`End` should be used when the player " ++
      "has completed the quest."
    parameters := [] },
  { kind := .action
    name := "AddNpcText"
    documentation :=
      "Adds dialogue text to a specified quest NPC, which is displayed when the NPC is " ++
      "clicked."
    parameters := [
      .required "behavior_id" .integer "The behavior ID of the quest NPC.",
      .required "text" .string "The dialogue text."] },
  { kind := .action
    name := "AddNpcInput"
    documentation :=
      "Adds a dialogue input to a specified quest NPC, which is displayed when the NPC is " ++
      "clicked."
    parameters := [
      .required "behavior_id" .integer "The behavior ID of the quest NPC.",
      .required "input_id" .integer
        "The ID of the dialogue input, used in conjunction with the `InputNpc` rule.",
      .required "text" .string "The dialogue input text."] },
  { kind := .action
    name := "ShowHint"
    documentation :=
      "Displays a message to the player as a hint."
    parameters := [
      .required "message" .string "The message to display to the player as a hint."] },
  { kind := .action
    name := "Quake"
    documentation :=
      "Plays the quake effect on the player's current map."
    parameters := [
      .optional "intensity" .integer "The intensity of the quake effect. (range 1-8)"] },
  { kind := .action
    name := "SetMap"
    documentation :=
      "Warps the player to the specified destination."
    parameters := [
      .required "map" .integer "The destination map ID.",
      .required "x" .integer "The destination X coordinate.",
      .required "y" .integer "The destination Y coordinate."] },
  { kind := .action
    name := "PlaySound"
    documentation :=
      "Plays the specified sound effect for the player."
    parameters := [
      .required "sfx_id" .integer
        ("The ID of the sound effect.\n\nCorresponds to the number in the `sfx***.wav` " ++
         "filename in the client's `sfx` folder.")] },
  { kind := .action
    name := "GiveExp"
    documentation :=
      "Increases the player's experience points by a specified amount."
    parameters := [
      .required "experience" .integer "The number of experience points to give to the player."] },
  { kind := .action
    name := "GiveItem"
    documentation :=
      "Adds an item to the player's inventory."
    parameters := [
      .required "item_id" .integer "The ID of the item to give to the player.",
      .optional "amount" .integer "The number of items to give to the player."] },
  { kind := .action
    name := "RemoveItem"
    documentation :=
      "Removes an item from the player's inventory."
    parameters := [
      .required "item_id" .integer "The ID of the item to remove from the player.",
      .optional "amount" .integer "The number of items to remove from the player."] },
  { kind := .action
    name := "SetClass"
    documentation :=
      "Changes the player's class."
    parameters := [
      .required "class_id" .integer "The ID of the player's new class."] },
  { kind := .action
    name := "RemoveKarma"
    documentation :=
      "Decreases the player's karma points by a specified amount."
    parameters := [
      .required "karma" .integer "The number of karma points to remove from the player."] },
  { kind := .action
    name := "GiveKarma"
    documentation :=
      "Increases the player's karma points by a specified amount."
    parameters := [
      .required "karma" .integer "The number of karma points to give to the player."] }]

/-- The actions of official quests alone. -/
def officialActions : List Builtin := [
  { kind := .action
    name := "AddNpcChat"
    documentation :=
      "Adds chat message to a specified quest NPC, which the NPC will occasionally say."
    parameters := [
      .required "behavior_id" .integer "The behavior ID of the quest NPC.",
      .required "chat" .string "The chat message for the NPC to say."] }]

/-- The actions of EOSERV quests alone. -/
def eoservActions : List Builtin := [
  { kind := .action
    name := "SetState"
    documentation :=
      "Sets this quest to a new quest state."
    parameters := [
      .required "state" .string "The name of the new quest state."] },
  { kind := .action
    name := "StartQuest"
    documentation :=
      "Starts the specified quest."
    parameters := [
      .required "quest_id" .integer "The ID of the quest to start.",
      .required "state" .string "The name of the quest state to start in."] },
  { kind := .action
    name := "ResetQuest"
    documentation :=
      "Resets the specified quest to the `begin` state and removes the quest from the " ++
      "player's quest log."
    parameters := [
      .required "quest_id" .integer "The ID of the quest to reset."] },
  { kind := .action
    name := "SetQuestState"
    documentation :=
      "Sets the specified quest to a new quest state."
    parameters := [
      .required "quest_id" .integer "The ID of the quest to set to a new quest state.",
      .required "state" .string "The name of the new quest state."] },
  { kind := .action
    name := "AddNpcChat"
    documentation :=
      "**Note:** `AddNpcChat` is not implemented in EOSERV.\n\nAdds chat message to a " ++
      "specified quest NPC, which the NPC will occasionally say."
    parameters := [
      .required "behavior_id" .integer "The behavior ID of the quest NPC.",
      .required "chat" .string "The chat message for the NPC to say."] },
  { kind := .action
    name := "QuakeWorld"
    documentation :=
      "Plays the quake effect on every map in the game world."
    parameters := [
      .optional "intensity" .integer "The intensity of the quake effect. (range 1-8)"] },
  { kind := .action
    name := "SetCoord"
    documentation :=
      "Warps the player to the specified destination.\n\nAn alias to the `SetMap` action."
    parameters := [
      .required "map" .integer "The destination map ID.",
      .required "x" .integer "The destination X coordinate.",
      .required "y" .integer "The destination Y coordinate."] },
  { kind := .action
    name := "SetRace"
    documentation :=
      "Changes the player's race."
    parameters := [
      .required "race_id" .integer "The ID of the player's new race."] },
  { kind := .action
    name := "SetTitle"
    documentation :=
      "Changes the player's title."
    parameters := [
      .required "title" .string "The player's new title."] },
  { kind := .action
    name := "SetFiance"
    documentation :=
      "Changes the player's fiance."
    parameters := [
      .required "fiance" .string "The name of the player's new fiance."] },
  { kind := .action
    name := "SetPartner"
    documentation :=
      "Changes the player's partner."
    parameters := [
      .required "partner" .string "The name of the player's new partner."] },
  { kind := .action
    name := "SetHome"
    documentation :=
      "Changes the player's home."
    parameters := [
      .required "home" .string "The name of the player's new home."] },
  { kind := .action
    name := "SetStat"
    documentation :=
      "Changes the specified player stat to a new value."
    parameters := [
      .required "stat" .string
        ("The name of the stat to modify. Options are: " ++
         statNames),
      .required "value" .string "The new value of the stat."] },
  { kind := .action
    name := "GiveStat"
    documentation :=
      "Increases the specified player stat by a specified amount."
    parameters := [
      .required "stat" .string
        ("The name of the stat to increase. Options are: " ++
         statNames),
      .required "amount" .integer "The amount to increase the stat by."] },
  { kind := .action
    name := "RemoveStat"
    documentation :=
      "Decreases the specified player stat by a specified amount."
    parameters := [
      .required "stat" .string
        ("The name of the stat to decrease. Options are: " ++
         statNames),
      .required "amount" .integer "The amount to decrease the stat by."] },
  { kind := .action
    name := "Roll"
    documentation :=
      "Generates a random number between 1 and a specified maximum (inclusive), used in " ++
      "conjunction with the `Rolled` rule."
    parameters := [
      .required "max" .integer "The largest number that can be rolled."] }]

/-- The actions of a flavor, those of both flavors first. -/
def actions : Flavor → List Builtin
  | .official => sharedActions ++ officialActions
  | .eoserv => sharedActions ++ eoservActions

end QuestScript.Builtin
