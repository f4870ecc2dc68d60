/-!
# Reference categories

What kind of thing a string value may name, and where the members of each kind come from: every
file with a suffix, the list of a manifest, or the keys of a localized text file.
-/

namespace ModAtlas.Reference

/-- What kind of thing a string names. -/
inductive Category where
  | texture
  | brush
  | localizedText
  | mesh
  | particleEffect
  | beamEffect
  | sound
  | unit
  | unitSkin
  | unitItem
  | ability
  | buff
  | weapon
  | researchSubject
  | npcReward
  | actionDataSource
  | formation
  | flightPattern
  | exotic
  | player
  | startMode
deriving DecidableEq, Repr

/-- Where the members of a category come from. -/
inductive Source where
  /-- Every file whose name ends with the suffix, known by the rest of its name; with
  `keepName` also by its whole name. -/
  | files (suffix : String) (keepName : Bool)
  /-- The `ids` that the manifest of a kind lists. -/
  | manifest (kind : String)
  /-- The keys of the localized text file of a language. -/
  | localizedKeys
deriving DecidableEq, Repr

/-- The suffix of localized text files. -/
def localizedSuffix : String := ".localized_text"

/-- The localized text file of a language. -/
def localizedFile (language : String) : String := language ++ localizedSuffix

/-- The manifest file of a kind. -/
def manifestFile (kind : String) : String := kind ++ ".entity_manifest"

namespace Category

/-- All categories, in the order in which they are loaded and counted. -/
def all : List Category :=
  [.texture, .brush, .localizedText, .mesh, .particleEffect, .beamEffect, .sound, .unit,
    .unitSkin, .unitItem, .ability, .buff, .weapon, .researchSubject, .npcReward,
    .actionDataSource, .formation, .flightPattern, .exotic, .player, .startMode]

/-- No category is missing from the list. -/
theorem mem_all (c : Category) : c ∈ all := by cases c <;> decide

/-- The name of a category. -/
def name : Category → String
  | .texture => "texture"
  | .brush => "brush"
  | .localizedText => "localized_text"
  | .mesh => "mesh"
  | .particleEffect => "particle_effect"
  | .beamEffect => "beam_effect"
  | .sound => "sound"
  | .unit => "unit"
  | .unitSkin => "unit_skin"
  | .unitItem => "unit_item"
  | .ability => "ability"
  | .buff => "buff"
  | .weapon => "weapon"
  | .researchSubject => "research_subject"
  | .npcReward => "npc_reward"
  | .actionDataSource => "action_data_source"
  | .formation => "formation"
  | .flightPattern => "flight_pattern"
  | .exotic => "exotic"
  | .player => "player"
  | .startMode => "start_mode"

/-- The category with a name. -/
def ofName? (name : String) : Option Category := all.find? (·.name == name)

/-- What a category is called in a message. -/
def label : Category → String
  | .localizedText => "localization key"
  | .particleEffect => "particle effect"
  | .beamEffect => "beam effect"
  | .unitSkin => "unit skin"
  | .unitItem => "unit item"
  | .researchSubject => "research subject"
  | .npcReward => "NPC reward"
  | .actionDataSource => "action data source"
  | .flightPattern => "flight pattern"
  | .startMode => "start mode"
  | c => c.name

/-- Where the members of a category come from. -/
def source : Category → Source
  | .texture => .files ".dds" true
  | .brush => .files ".png" true
  | .localizedText => .localizedKeys
  | .mesh => .files ".mesh" false
  | .particleEffect => .files ".particle_effect" false
  | .beamEffect => .files ".beam_effect" false
  | .sound => .files ".sound" false
  | c => .manifest c.name

/-- Are the members image files? -/
def isImage : Category → Bool
  | .texture => true
  | .brush => true
  | _ => false

/-- What is said of a value that is no member of its category. -/
def missing (c : Category) (value : String) : String :=
  "No such " ++ c.label ++ ": '" ++ value ++ "'"

end Category
end ModAtlas.Reference
