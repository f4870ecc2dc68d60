import ModAtlas.Text.Piece

/-!
# Schema files of documents

Which schema file a document is held against, by the name of the document: uniform documents by
their whole name, entities and other data by the end of it. Kinds of data without a published
schema have a bundled schema that accepts every value.
-/

namespace ModAtlas.Schema

/-- The schema of data without a published schema. -/
def freeSchema : String := "unknown-schema.json"

/-- The schema of entity manifests. -/
def manifestSchema : String := "entity-manifest-schema.json"

/-- Schemas that come with the program and not with the game. -/
def isBundled (schemaFile : String) : Bool :=
  schemaFile == freeSchema || schemaFile == manifestSchema

/-- The schemas of uniform documents, by whole name. -/
def uniformSchemas : List (String × String) := [
  ("action.uniforms", "action-uniforms-schema.json"),
  ("attack_target_type.uniforms", "attack-target-type-uniforms-schema.json"),
  ("attack_target_type_group.uniforms", "attack-target-type-group-uniforms-schema.json"),
  ("culture.uniforms", "culture-uniforms-schema.json"),
  ("debris.uniforms", "debris-uniforms-schema.json"),
  ("diplomatic_tag.uniforms", "diplomatic-tags-schema.json"),
  ("exotic.uniforms", "exotic-uniforms-schema.json"),
  ("formation.uniforms", "formation-uniforms-schema.json"),
  ("front_end.uniforms", "front-end-uniforms-schema.json"),
  ("future_orbit.uniforms", "future-orbit-uniforms-schema.json"),
  ("galaxy_generator.uniforms", "galaxy-generator-uniforms-schema.json"),
  ("game_renderer.uniforms", "game-renderer-uniforms-schema.json"),
  ("gui.uniforms", "gui-uniforms-schema.json"),
  ("hud_skin.uniforms", "hud-skin-uniforms-schema.json"),
  ("loot.uniforms", "loot-uniforms-schema.json"),
  ("main_view.uniforms", "main-view-uniforms-schema.json"),
  ("missions.uniforms", "mission-uniforms-schema.json"),
  ("music.uniforms", "music-uniforms-schema.json"),
  ("notification.uniforms", "notification-uniforms-schema.json"),
  ("objective_based_structure.uniforms", freeSchema),
  ("planet.uniforms", "planet-uniforms-schema.json"),
  ("planet_track.uniforms", "planet-track-uniforms-schema.json"),
  ("player.uniforms", "player-uniforms-schema.json"),
  ("player_ai.uniforms", "player-ai-uniforms-schema.json"),
  ("player_ai_diplomacy.uniforms", "player-ai-diplomacy-schema.json"),
  ("player_color.uniforms", "player-color-uniforms-schema.json"),
  ("player_race.uniforms", "player-race-uniforms-schema.json"),
  ("random_skybox_filling.uniforms", "random-skybox-fillings-uniforms-schema.json"),
  ("research.uniforms", "research-uniforms-schema.json"),
  ("scenario.uniforms", "scenario-uniforms-schema.json"),
  ("special_operation_unit.uniforms", "special-operation-unit-uniforms-schema.json"),
  ("start_mode.uniforms", "start-mode-uniforms-schema.json"),
  ("strikecraft.uniforms", "strikecraft-uniforms-schema.json"),
  ("target_filter.uniforms", "target-filter-uniforms-schema.json"),
  ("tutorial.uniforms", "tutorial-uniforms-schema.json"),
  ("unit.uniforms", "unit-uniforms-schema.json"),
  ("unit_bar.uniforms", "unit-bar-uniforms-schema.json"),
  ("unit_build.uniforms", "unit-build-uniforms-schema.json"),
  ("unit_mutation.uniforms", "unit-mutation-uniforms-schema.json"),
  ("unit_tag.uniforms", "unit-tag-uniforms-schema.json"),
  ("user_interface.uniforms", "user-interface-uniforms-schema.json"),
  ("weapon.uniforms", "weapon-uniforms-schema.json")
]

/-- The schemas of entities, by the end of the name. -/
def entitySchemas : List (String × String) := [
  (".ability", "ability-schema.json"),
  (".action_data_source", "action-data-source-schema.json"),
  (".buff", "buff-schema.json"),
  (".entity_manifest", manifestSchema),
  (".exotic", "exotic-schema.json"),
  (".flight_pattern", "flight-pattern-schema.json"),
  (".formation", "formation-schema.json"),
  (".npc_reward", "npc-reward-schema.json"),
  (".player", "player-schema.json"),
  (".research_subject", "research-subject-schema.json"),
  (".start_mode", freeSchema),
  (".unit", "unit-schema.json"),
  (".unit_item", "unit-item-schema.json"),
  (".unit_skin", "unit-skin-schema.json"),
  (".weapon", "weapon-schema.json"),
  (".brush", "brush-schema.json")
]

/-- Ends of names of data without a published schema. -/
def freeSuffixes : List String := [
  ".named_colors",
  ".cursor",
  ".death_sequence",
  ".beam_effect",
  ".exhaust_trail_effect",
  ".particle_effect",
  ".shield_effect",
  ".font",
  ".gdpr_accept_data",
  ".gravity_well_props",
  ".gui",
  ".button_style",
  ".drop_box_style",
  ".label_style",
  ".list_box_style",
  ".reflect_box_style",
  ".scroll_bar_style",
  ".text_entry_box_style",
  ".localized_text",
  ".mesh_materials",
  ".player_color_group",
  ".player_icon",
  ".player_portrait",
  ".scenario",
  ".skybox",
  ".sound",
  ".texture_animation",
  ".welcome_message",
  ".playtime_message"
]

/-- Whole names of data without a published schema. -/
def freeNames : List String := [
  ".mod_meta_data",
  "settings_override.json"
]

/-- The schema file of a document: the first that fits, uniform documents before entities before
data without a published schema. -/
def schemaFileFor (fileName : String) : Option String :=
  match uniformSchemas.find? (·.1 == fileName) with
  | some p => some p.2
  | none =>
    let endsIn (suffix : String) : Bool := Text.endsWith fileName.toList suffix.toList
    match entitySchemas.find? fun p => endsIn p.1 with
    | some p => some p.2
    | none =>
      if freeSuffixes.any endsIn || freeNames.contains fileName then some freeSchema else none

end ModAtlas.Schema
