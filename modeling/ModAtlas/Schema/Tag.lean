import ModAtlas.Schema.Scope
import ModAtlas.Reference.Category

/-!
# Tags

A tag says that the value of a property names something of a category. Tags are not written into
a schema; a table holds them by subschema and property name. Rules say which properties are
tagged: everywhere in a schema, or in the scope of one pointer. The first rule that fits a
property of a subschema decides.
-/

namespace ModAtlas.Schema
open ModAtlas.Json ModAtlas.Reference

/-- Tag the property `name` with `category` in every subschema in the scope of `scope`. -/
structure TagRule where
  name : String
  category : Category
  scope : String
deriving DecidableEq, Repr

/-- One tag: a subschema, a property of it and the category of the property's value. -/
structure Tag where
  pointer : String
  property : String
  category : Category
deriving DecidableEq, Repr

/-- Tags in the order in which they were found, at most one for a property of a subschema. -/
abbrev TagTable := List Tag

namespace TagTable

/-- The category of a property of a subschema. -/
def get? (table : TagTable) (pointer property : String) : Option Category :=
  (table.find? fun t => t.pointer == pointer && t.property == property).map (·.category)

/-- Adds a tag unless the property has one. -/
def add (table : TagTable) (tag : Tag) : TagTable :=
  if (table.get? tag.pointer tag.property).isSome then table else table ++ [tag]

/-- The tagged property names, sorted. -/
def properties (table : TagTable) : List String :=
  Text.sortedDistinct (table.map (·.property))

end TagTable

/-! ## Rules -/

/-- Where a document keeps what the player reads. -/
def interfaceScope : String := "/properties/user_interface"

/-- A rule that holds in the whole schema. -/
def TagRule.everywhere (name : String) (category : Category) : TagRule := ⟨name, category, ""⟩

/-- The rules of every schema. -/
def commonRules : List TagRule := [
  ⟨"name", .localizedText, interfaceScope⟩,
  ⟨"description", .localizedText, interfaceScope⟩,
  .everywhere "tooltip_title" .localizedText,
  .everywhere "tooltip_description" .localizedText,
  .everywhere "icon" .brush,
  .everywhere "hud_icon" .brush,
  .everywhere "tooltip_icon" .brush,
  .everywhere "tooltip_picture" .brush]

/-- The further rules of one schema file. -/
def ownRules (schemaFile : String) : List TagRule :=
  match schemaFile with
  | "unit-schema.json" => [
    .everywhere "skins" .unitSkin,
    .everywhere "abilities" .ability,
    .everywhere "unit_items" .unitItem,
    .everywhere "weapon" .weapon,
    .everywhere "formation" .formation,
    .everywhere "flight_pattern" .flightPattern,
    .everywhere "exotic" .exotic,
    .everywhere "research_subject" .researchSubject]
  | "unit-skin-schema.json" => [
    .everywhere "mesh" .mesh,
    .everywhere "texture" .texture,
    .everywhere "particle_effect" .particleEffect,
    .everywhere "beam_effect" .beamEffect,
    .everywhere "sound" .sound]
  | "unit-item-schema.json" => [
    .everywhere "ability" .ability,
    .everywhere "buff" .buff,
    .everywhere "prerequisites" .researchSubject]
  | "ability-schema.json" => [
    .everywhere "buff" .buff,
    .everywhere "action_data_source" .actionDataSource,
    .everywhere "unit" .unit,
    .everywhere "sound" .sound]
  | "buff-schema.json" => [
    .everywhere "buff" .buff,
    .everywhere "action_data_source" .actionDataSource,
    .everywhere "particle_effect" .particleEffect,
    .everywhere "beam_effect" .beamEffect,
    .everywhere "sound" .sound,
    .everywhere "unit" .unit]
  | "weapon-schema.json" => [
    .everywhere "beam_effect" .beamEffect,
    .everywhere "particle_effect" .particleEffect,
    .everywhere "sound" .sound,
    .everywhere "buff" .buff]
  | "research-subject-schema.json" => [
    .everywhere "prerequisites" .researchSubject,
    .everywhere "unit_items" .unitItem,
    .everywhere "units" .unit]
  | "npc-reward-schema.json" => [
    .everywhere "units" .unit,
    .everywhere "exotic" .exotic]
  | "player-schema.json" => [
    .everywhere "units" .unit,
    .everywhere "start_mode" .startMode,
    .everywhere "research_subjects" .researchSubject,
    .everywhere "npc_rewards" .npcReward]
  | "mission-uniforms-schema.json" => [
    .everywhere "build_structure_tooltip_title_override" .localizedText,
    .everywhere "build_structure_tooltip_desc_override" .localizedText,
    .everywhere "trigger_tooltip_desc_override" .localizedText,
    .everywhere "trigger_hud_icon_structure_override" .brush,
    .everywhere "player" .player]
  | "exotic-uniforms-schema.json" => [.everywhere "exotics" .exotic]
  | "formation-uniforms-schema.json" => [.everywhere "formations" .formation]
  | _ => []

/-- The rules of a schema file, those of every schema first. -/
def rulesFor (schemaFile : String) : List TagRule := commonRules ++ ownRules schemaFile

/-! ## Tagging -/

/-- A rule together with the roots of its scope. -/
structure ScopedRule where
  rule : TagRule
  roots : List String
deriving Repr

/-- The scopes of rules. -/
def scopedRules (schema : Value) (rules : List TagRule) :
    Except Pointer.Error (List ScopedRule) :=
  rules.mapM fun rule => return ⟨rule, ← scopeRoots schema rule.scope⟩

/-- Does a rule tag a property that the subschema at a pointer declares? -/
def ScopedRule.applies (r : ScopedRule) (pointer : String) (properties : Members) : Bool :=
  Members.has properties r.rule.name && r.roots.any (Pointer.within pointer)

/-- Adds the tags of one subschema. -/
def tagSubschema (rules : List ScopedRule) (table : TagTable) (sub : Subschema) : TagTable :=
  match declared? sub.members with
  | none => table
  | some properties =>
    rules.foldl (fun table r =>
      if r.applies sub.pointer properties then
        table.add ⟨sub.pointer, r.rule.name, r.rule.category⟩
      else table) table

/-- The tags of a schema under rules. -/
def tagsOf (schema : Value) (rules : List TagRule) : Except Pointer.Error TagTable := do
  let ready ← scopedRules schema rules
  return (subschemas "" schema).foldl (tagSubschema ready) []

end ModAtlas.Schema
