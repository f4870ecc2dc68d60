import ModAtlas.Json.Value

/-!
# Corrections of published schemas

Two published schemas lack properties that the game's own data uses. A correction writes them in;
schemas of other files stay as they are. A schema whose `properties` is there but is no object
cannot be corrected.
-/

namespace ModAtlas.Schema
open ModAtlas.Json

/-- Why a schema cannot be corrected. -/
inductive CorrectionError where
  | schemaNotObject
  | propertiesNotObject
deriving DecidableEq, Repr

/-- Changes the member under a key, if there is one. -/
def changeMember (key : String) (f : Value → Value) : Members → Members
  | [] => []
  | (k, v) :: rest => if k = key then (k, f v) :: rest else (k, v) :: changeMember key f rest

/-- Changes the members of an object; other values stay. -/
def changeObject (f : Members → Members) : Value → Value
  | .obj members => .obj (f members)
  | v => v

/-- Changes the properties that an object schema declares. -/
def changeProperties (f : Members → Members) : Value → Value :=
  changeObject (changeMember "properties" (changeObject f))

/-- Changes the properties that the item schema of an array schema declares. -/
def changeItemProperties (f : Members → Members) : Value → Value :=
  changeObject (changeMember "items" (changeProperties f))

/-- The properties that the item schema of an array schema declares. -/
def itemProperties? (v : Value) : Option Members :=
  ((v.get? "items").bind (·.get? "properties")).bind Value.members?

/-- The schema of every value of one type. -/
def typeSchema (name : String) : Value := .obj [("type", .str name)]

/-- A chain's trigger and its reward of spawned units take one more property each. -/
def correctChain (chain : Members) : Members :=
  changeMember "reward"
    (changeItemProperties
      (changeMember "spawn_unit_reward"
        (changeProperties (Members.put "hyperspace_time" (typeSchema "number")))))
    (changeMember "trigger"
      (changeItemProperties
        (Members.put "trigger_tooltip_desc_override" (typeSchema "string")))
      chain)

/-- The chains of a mission's operations. -/
def correctOperations (missions : Members) : Members :=
  changeMember "operation_chains"
    (changeItemProperties (changeMember "chains" (changeItemProperties correctChain)))
    missions

/-- The schema of the chains of operations, when there is one. -/
def operationChains? (missions : Members) : Option Value :=
  match ((Members.get? missions "operation_chains").bind itemProperties?).bind
      (Members.get? · "chains") with
  | some .null => none
  | chains => chains

/-- Side operations have the same chains as operations. -/
def shareChains (missions : Members) : Members :=
  match operationChains? missions with
  | none => missions
  | some chains =>
    changeMember "side_operations" (changeProperties (Members.put "chains" chains)) missions

/-- The properties of the mission schema. -/
def correctMissionProperties (properties : Members) : Members :=
  changeMember "main_mission_chains"
    (changeItemProperties fun missions => shareChains (correctOperations missions))
    (Members.put "reward_hud_definition" (typeSchema "object")
      (Members.put "trigger_hud_definition" (typeSchema "object")
        (Members.put "trigger_hud_icon_structure_override" (typeSchema "string")
          (Members.put "build_structure_tooltip_desc_override" (typeSchema "string")
            (Members.put "build_structure_tooltip_title_override" (typeSchema "string")
              properties)))))

/-- The properties of the galaxy generator schema. -/
def correctGalaxyProperties (properties : Members) : Members :=
  Members.put "fillings" (typeSchema "object") properties

/-- How the properties of a schema file are corrected, if they are. -/
def correctionOf (schemaFile : String) : Option (Members → Members) :=
  match schemaFile with
  | "galaxy-generator-uniforms-schema.json" => some correctGalaxyProperties
  | "mission-uniforms-schema.json" => some correctMissionProperties
  | _ => none

/-- A schema with its corrections. Missing properties are added as an empty object first. -/
def correct (schemaFile : String) (schema : Value) : Except CorrectionError Value :=
  match correctionOf schemaFile with
  | none => .ok schema
  | some f =>
    match schema with
    | .obj members =>
      match Members.get? members "properties" with
      | none => .ok (.obj (Members.put "properties" (.obj (f [])) members))
      | some (.obj properties) =>
        .ok (.obj (Members.put "properties" (.obj (f properties)) members))
      | some _ => .error .propertiesNotObject
    | _ => .error .schemaNotObject

end ModAtlas.Schema
