import ModAtlas.Proofs.Schema.Edits

/-!
# What corrections write

A correction is a row of insertions into the properties of a schema; that of the mission schema
then shares the chains of operations with side operations. A corrected schema is settled: it is
its own correction. Only the positions written to differ from the schema as it was read, and the
chains of side operations end up as those of operations.

## Implementation notes

Corrections are stated member by member in the program. Here they are rows of insertions along
paths of keys, which are proved to be the same.
-/

namespace ModAtlas.Schema
open ModAtlas.Document ModAtlas.Json

/-! ## Corrections as insertions -/

/-- The schema file of missions. -/
def missionFile : String := "mission-uniforms-schema.json"

/-- Where a mission schema declares the properties of missions. -/
def missionsHolder : List String := ["properties", "main_mission_chains", "items", "properties"]

/-- Where it declares the properties of operation chains. -/
def operationsHolder : List String :=
  missionsHolder ++ ["operation_chains", "items", "properties"]

/-- Where it declares the properties of one chain of operations. -/
def chainHolder : List String := operationsHolder ++ ["chains", "items", "properties"]

/-- Where it declares the properties of side operations. -/
def sideHolder : List String := missionsHolder ++ ["side_operations", "properties"]

/-- The chains of operations. -/
def chainsPosition : List PathStep := alongKeys (operationsHolder ++ ["chains"])

/-- The chains of side operations. -/
def sidePosition : List PathStep := alongKeys (sideHolder ++ ["chains"])

/-- What is written into the schema of a file. -/
def insertionsOf (schemaFile : String) : List Insertion :=
  match schemaFile with
  | "galaxy-generator-uniforms-schema.json" => [⟨["properties"], "fillings", typeSchema "object"⟩]
  | "mission-uniforms-schema.json" =>
    [⟨["properties"], "build_structure_tooltip_title_override", typeSchema "string"⟩,
      ⟨["properties"], "build_structure_tooltip_desc_override", typeSchema "string"⟩,
      ⟨["properties"], "trigger_hud_icon_structure_override", typeSchema "string"⟩,
      ⟨["properties"], "trigger_hud_definition", typeSchema "object"⟩,
      ⟨["properties"], "reward_hud_definition", typeSchema "object"⟩,
      ⟨chainHolder ++ ["trigger", "items", "properties"], "trigger_tooltip_desc_override",
        typeSchema "string"⟩,
      ⟨chainHolder ++ ["reward", "items", "properties", "spawn_unit_reward", "properties"],
        "hyperspace_time", typeSchema "number"⟩]
  | _ => []

/-- What is there and is not null. -/
def present : Option Value → Option Value
  | some .null => none
  | part => part

/-- The chains of operations that side operations are to have too. -/
def chains? (v : Value) : Option Value := present (v.follow? chainsPosition)

/-- Chains for side operations. -/
def sideChains (chains : Value) : Insertion := ⟨sideHolder, "chains", chains⟩

/-- A mission schema whose side operations have the chains of operations. -/
def shared (v : Value) : Value :=
  match chains? v with
  | none => v
  | some chains => (sideChains chains).apply v

/-- A schema with its corrections, its properties being there. -/
def edited (schemaFile : String) (v : Value) : Value :=
  if schemaFile = missionFile then shared (applyAll (insertionsOf schemaFile) v)
  else applyAll (insertionsOf schemaFile) v

theorem operationChains?_eq {v : Value} {missions : Members}
    (h : v.follow? (alongKeys missionsHolder) = some (.obj missions)) :
    operationChains? missions = chains? v := by
  have hchains (u : Value) : u.members?.bind (Members.get? · "chains") =
      u.follow? [.key "chains"] := by
    rw [Value.follow?_key]
    cases u with
    | obj members =>
        rw [Value.members?, Option.bind_some, Value.get?]
        cases Members.get? members "chains" <;> rfl
    | _ => rfl
  have hitems (u : Value) : (itemProperties? u).bind (Members.get? · "chains") =
      u.follow? (alongKeys ["items", "properties", "chains"]) := by
    rw [itemProperties?, Option.bind_assoc, Option.bind_assoc, alongKeys, List.map_cons,
      Value.follow?_key]
    refine congrArg (Option.bind _) (funext fun items => ?_)
    rw [List.map_cons, Value.follow?_key]
    exact congrArg (Option.bind _) (funext hchains)
  have hposition : chainsPosition = alongKeys missionsHolder ++
      .key "operation_chains" :: alongKeys ["items", "properties", "chains"] := rfl
  have hfound : ((Members.get? missions "operation_chains").bind itemProperties?).bind
      (Members.get? · "chains") = v.follow? chainsPosition := by
    rw [hposition, Value.follow?_append, h, Option.bind_some, Value.follow?_key,
      Option.bind_assoc]
    exact congrArg (Option.bind _) (funext hitems)
  rw [operationChains?, chains?, hfound]
  rfl

/-- Sharing the chains among the members of missions is sharing them in the schema. -/
theorem changeAt_shareChains (v : Value) :
    changeAt missionsHolder shareChains v = shared v := by
  unfold shared
  cases hchains : chains? v with
  | none =>
      refine changeAt_eq_self fun missions hmissions => ?_
      rw [shareChains, operationChains?_eq hmissions, hchains]
  | some chains =>
      refine (changeAt_congr fun missions hmissions => ?_ : _ = changeAt missionsHolder
        (changeMember "side_operations" (changeProperties (Members.put "chains" chains))) v)
      rw [shareChains, operationChains?_eq hmissions, hchains]

/-- Correcting operations is correcting their chains in the schema. -/
theorem changeAt_correctOperations (v : Value) :
    changeAt missionsHolder correctOperations v = changeAt chainHolder correctChain v := by
  have hchain : chainHolder = missionsHolder ++ "operation_chains" ::
      (["items", "properties"] ++ "chains" :: ["items", "properties"]) := rfl
  have hoperations : correctOperations = changeMember "operation_chains"
      (changeAt ["items", "properties"]
        (changeMember "chains" (changeAt ["items", "properties"] correctChain))) := rfl
  rw [hchain, changeAt_append, changeAt_append, hoperations]

theorem changeAt_correctMissionProperties (v : Value) :
    changeAt ["properties"] correctMissionProperties v =
      shared (applyAll (insertionsOf missionFile) v) := by
  -- one factor for each insertion, the last one first
  have hbelow (f : Members → Members) :
      changeAt ["properties"] (changeMember "main_mission_chains" (changeItemProperties f)) =
        changeAt missionsHolder f := rfl
  have hparts : correctChain = changeMember "reward" _ ∘ changeMember "trigger" _ := rfl
  have hmission : correctMissionProperties =
      changeMember "main_mission_chains"
        (changeItemProperties (shareChains ∘ correctOperations)) ∘ _ ∘ _ ∘ _ ∘ _ ∘ _ := rfl
  rw [hmission]
  simp only [changeAt_comp]
  rw [hbelow, changeAt_comp, changeAt_shareChains,
    changeAt_correctOperations, hparts, changeAt_comp]
  rfl

theorem edited_of_correctionOf {file : String} {f : Members → Members}
    (h : correctionOf file = some f) (v : Value) : changeAt ["properties"] f v = edited file v := by
  unfold correctionOf at h
  split at h
  · cases h
    rfl
  · cases h
    exact changeAt_correctMissionProperties v
  · cases h

theorem insertionsOf_eq_nil {file : String} (h : correctionOf file = none) :
    insertionsOf file = [] ∧ file ≠ missionFile := by
  unfold correctionOf at h
  split at h
  · cases h
  · cases h
  · rename_i hgalaxy hmission
    refine ⟨?_, hmission⟩
    unfold insertionsOf
    split
    · exact absurd rfl hgalaxy
    · exact absurd rfl hmission
    · rfl

/-! ## Schemas with properties -/

/-- The members of a schema that declares properties, none if it did not. -/
def declared (members : Members) : Members :=
  match Members.get? members "properties" with
  | none => Members.put "properties" (.obj []) members
  | some _ => members

theorem declared_of_get? {members : Members} {v : Value}
    (h : Members.get? members "properties" = some v) : declared members = members := by
  rw [declared, h]

/-- A schema is corrected if its properties are an object or missing. -/
theorem correct_eq_ok_iff {file : String} {f : Members → Members} {schema t : Value}
    (hf : correctionOf file = some f) : correct file schema = .ok t ↔
      ∃ members properties, schema = .obj members ∧
        Members.get? (declared members) "properties" = some (.obj properties) ∧
        t = edited file (.obj (declared members)) := by
  have hput {members properties : Members}
      (h : Members.get? (declared members) "properties" = some (.obj properties)) :
      edited file (.obj (declared members)) =
        .obj (Members.put "properties" (.obj (f properties)) (declared members)) := by
    rw [← edited_of_correctionOf hf, changeAt, changeObject, changeMember_eq_put h]
    rfl
  unfold correct
  rw [hf]
  cases schema with
  | obj members =>
      dsimp only
      cases hget : Members.get? members "properties" with
      | none =>
          have hdeclared : declared members = Members.put "properties" (.obj []) members := by
            rw [declared, hget]
          have hproperties : Members.get? (declared members) "properties" = some (.obj []) := by
            rw [hdeclared, Members.get?_put, if_pos rfl]
          have hedited := hput hproperties
          rw [hdeclared, Members.put_put, ← hdeclared] at hedited
          constructor
          · intro h
            cases h
            exact ⟨members, [], rfl, hproperties, hedited.symm⟩
          · rintro ⟨_, _, ⟨⟩, -, rfl⟩
            rw [hedited]
      | some v =>
          have hdeclared := declared_of_get? hget
          cases v with
          | obj properties =>
              have hedited := hput (hdeclared.symm ▸ hget)
              rw [hdeclared] at hedited
              constructor
              · intro h
                cases h
                exact ⟨members, properties, rfl, hdeclared.symm ▸ hget,
                  hdeclared.symm ▸ hedited.symm⟩
              · rintro ⟨_, _, ⟨⟩, -, rfl⟩
                rw [hdeclared, hedited]
          | _ =>
              constructor
              · intro h
                cases h
              · rintro ⟨_, _, ⟨⟩, hother, -⟩
                rw [hdeclared, hget] at hother
                cases hother
  | _ =>
      constructor
      · intro h
        cases h
      · rintro ⟨_, _, ⟨⟩, -⟩

/-! ## Edits of a correction -/

theorem pairwiseApart_insertionsOf (file : String) : PairwiseApart (insertionsOf file) := by
  unfold insertionsOf PairwiseApart
  split <;> decide

theorem apart_sidePosition {file : String} :
    ∀ i ∈ insertionsOf file, Apart i.position sidePosition := by
  unfold insertionsOf
  split <;> decide

/-- Side operations get chains: there are chains of operations, and an object to write them into. -/
def Shares (v : Value) : Prop :=
  (∃ chains, chains? v = some chains) ∧
    ∃ side, v.follow? (alongKeys sideHolder) = some (.obj side)

/-- The positions at which a correction writes into a schema that declares properties. -/
inductive Written (file : String) (v : Value) : List PathStep → Prop
  | inserted {i : Insertion} (listed : i ∈ insertionsOf file) (there : i.Applies v) :
      Written file v i.position
  | shared (mission : file = missionFile) (shares : Shares v) : Written file v sidePosition

section Edited
variable {file : String} {v u : Value} {W : List PathStep → Prop}

/-- Chains of operations are found after edits that are not at or above them exactly if they were
found before. -/
theorem exists_chains?_iff (h : Edits W v u) (hW : ∀ w, W w → ¬ w <+: chainsPosition) :
    (∃ chains, chains? u = some chains) ↔ ∃ chains, chains? v = some chains := by
  have hgrown := h.grown chainsPosition hW
  unfold chains?
  generalize v.follow? chainsPosition = a at hgrown ⊢
  generalize u.follow? chainsPosition = b at hgrown ⊢
  cases hgrown with
  | same => exact Iff.rfl
  | object => simp [present]

/-- Whether chains are shared does not depend on the insertions before. -/
theorem shares_applyAll_iff : Shares (applyAll (insertionsOf file) v) ↔ Shares v := by
  have hbelow : ∀ i ∈ insertionsOf file,
      ¬ i.position <+: chainsPosition ∧ ¬ i.position <+: alongKeys sideHolder := by
    unfold insertionsOf
    split <;> decide
  have hedits := edits_applyAll (pairwiseApart_insertionsOf file) v
  refine and_congr (exists_chains?_iff hedits ?_) (hedits.object_iff ?_)
  · rintro w ⟨i, hi, -, rfl⟩
    exact (hbelow i hi).1
  · rintro w ⟨i, hi, -, rfl⟩
    exact (hbelow i hi).2

theorem edits_shared (v : Value) :
    Edits (fun w => Shares v ∧ w = sidePosition) v (shared v) := by
  unfold shared
  split
  · exact .refl _ _
  · rename_i chains hchains
    refine ((sideChains chains).edits_apply v).mono ?_
    rintro w ⟨happlies, rfl⟩
    exact ⟨⟨⟨chains, hchains⟩, happlies⟩, rfl⟩

/-- A correction edits the positions that it writes at. -/
theorem edits_edited (file : String) (v : Value) : Edits (Written file v) v (edited file v) := by
  have hinserts : Edits (Written file v) v (applyAll (insertionsOf file) v) := by
    refine (edits_applyAll (pairwiseApart_insertionsOf file) v).mono ?_
    rintro w ⟨i, hi, happlies, rfl⟩
    exact .inserted hi happlies
  unfold edited
  split
  · rename_i hmission
    refine hinserts.trans ((edits_shared _).mono ?_)
    rintro w ⟨hshares, rfl⟩
    exact .shared hmission (shares_applyAll_iff.mp hshares)
  · exact hinserts

theorem settled_edited : ∀ i ∈ insertionsOf file, i.Settled (edited file v) := by
  intro i hi
  have hsettled := settled_applyAll (v := v) (pairwiseApart_insertionsOf file) i hi
  unfold edited
  split
  · refine hsettled.edits (edits_shared _) ?_
    rintro w ⟨-, rfl⟩
    exact (apart_sidePosition i hi).symm
  · exact hsettled

theorem follow?_chains_shared (v : Value) :
    (shared v).follow? chainsPosition = v.follow? chainsPosition := by
  refine (edits_shared v).apart chainsPosition ?_
  rintro w ⟨-, rfl⟩
  decide

/-- Chains that were shared are shared already. -/
theorem shared_shared (v : Value) : shared (shared v) = shared v := by
  cases hchains : chains? v with
  | none =>
      have hsame : shared v = v := by rw [shared, hchains]
      rw [hsame, hsame]
  | some chains =>
      have hfound : chains? (shared v) = some chains := by
        rw [chains?, follow?_chains_shared, ← chains?, hchains]
      have hsettled : (sideChains chains).Settled (shared v) := by
        rw [shared, hchains]
        exact (sideChains chains).settled_apply v
      calc shared (shared v)
          = (sideChains chains).apply (shared v) := by rw [shared.eq_1 (shared v), hfound]
        _ = shared v := hsettled.apply

theorem edited_edited (file : String) (v : Value) :
    edited file (edited file v) = edited file v := by
  have hinserts : applyAll (insertionsOf file) (edited file v) = edited file v :=
    applyAll_of_settled settled_edited
  rw [edited, hinserts]
  split
  · rename_i hmission
    rw [edited, if_pos hmission]
    exact shared_shared _
  · rfl

/-- Side operations that get chains end up with those of operations. -/
theorem shared_shares (h : Shares v) :
    ∃ chains, (shared v).follow? chainsPosition = some chains ∧
      (shared v).follow? sidePosition = some chains := by
  obtain ⟨⟨chains, hchains⟩, hside⟩ := h
  have hfound : v.follow? chainsPosition = some chains := by
    unfold chains? present at hchains
    split at hchains
    · cases hchains
    · exact hchains
  refine ⟨chains, by rw [follow?_chains_shared, hfound], ?_⟩
  rw [shared, hchains]
  exact ((sideChains chains).settled_apply v).follow? (Insertion.applies_apply_iff.mpr hside)

end Edited

/-! ## Corrected schemas -/

/-- A schema object that declares properties, none if it did not; anything else stays. -/
def withProperties : Value → Value := changeObject declared

section WithProperties
variable {v : Value} {q : List PathStep}

/-- Only where properties stand and above does it matter whether they are declared. -/
theorem follow?_withProperties (hroot : q ≠ []) (hproperties : q ≠ alongKeys ["properties"]) :
    (withProperties v).follow? q = v.follow? q := by
  cases v with
  | obj members =>
      cases hget : Members.get? members "properties" with
      | some declared => rw [withProperties, changeObject, declared_of_get? hget]
      | none =>
          rw [withProperties, changeObject, declared, hget]
          cases q with
          | nil => exact absurd rfl hroot
          | cons step q =>
              cases step with
              | index i => rfl
              | key name =>
                  rw [Value.follow?_key, Value.follow?_key, Value.get?, Value.get?,
                    Members.get?_put]
                  split
                  · rename_i hname
                    subst hname
                    rw [hget]
                    cases q with
                    | nil => exact absurd rfl hproperties
                    | cons step q => cases step <;> rfl
                  · rfl
  | _ => rfl

/-- An object stays one, with its keys in order. -/
theorem exists_object_withProperties {members : Members} (h : v.follow? q = some (.obj members)) :
    ∃ members', (withProperties v).follow? q = some (.obj members') ∧
      Members.keys members <+: Members.keys members' := by
  by_cases hroot : q = []
  · subst hroot
    cases h
    refine ⟨declared members, rfl, ?_⟩
    unfold declared
    split
    · exact Members.keys_put
    · exact List.prefix_rfl
  by_cases hproperties : q = alongKeys ["properties"]
  · subst hproperties
    have hsame : withProperties v = v := by
      cases v with
      | obj outer =>
          rw [alongKeys, List.map_cons, Value.follow?_key] at h
          obtain ⟨properties, hget, -⟩ := Option.bind_eq_some_iff.mp h
          rw [withProperties, changeObject, declared_of_get? hget]
      | _ => rfl
    exact ⟨members, by rw [hsame, h], List.prefix_rfl⟩
  · exact ⟨members, by rw [follow?_withProperties hroot hproperties, h], List.prefix_rfl⟩

end WithProperties

/-- Some insertion of a correction is made into the properties of the schema. -/
theorem exists_property_insertion {file : String} {f : Members → Members}
    (h : correctionOf file = some f) : ∃ i ∈ insertionsOf file, i.holder = ["properties"] := by
  unfold correctionOf at h
  split at h
  · exact ⟨_, List.mem_cons_self, rfl⟩
  · exact ⟨_, List.mem_cons_self, rfl⟩
  · cases h

section Written
variable {file : String} {v : Value} {w : List PathStep}

/-- Nothing is written at the properties of a schema or above them. -/
theorem Written.not_prefix_properties (h : Written file v w) {q : List PathStep}
    (hq : q <+: alongKeys ["properties"]) : ¬ w <+: q := by
  have hlong : 1 < w.length := by
    cases h with
    | inserted listed there =>
        have hall : ∀ i ∈ insertionsOf file, 1 < i.position.length := by
          unfold insertionsOf
          split <;> decide
        exact hall _ listed
    | shared mission shares => decide
  intro habove
  have hlength := (habove.trans hq).length_le
  exact absurd hlong (Nat.not_lt.mpr hlength)

/-- Nothing is written where insertions are made or above that. -/
theorem Written.not_prefix_holder (h : Written file v w) {i : Insertion}
    (hi : i ∈ insertionsOf file) : ¬ w <+: alongKeys i.holder := by
  cases h with
  | inserted listed there =>
      have hall : ∀ i ∈ insertionsOf file, ∀ j ∈ insertionsOf file,
          ¬ j.position <+: alongKeys i.holder := by
        unfold insertionsOf
        split <;> decide
      exact hall i hi _ listed
  | shared mission shares =>
      exact fun habove => (apart_sidePosition i hi).2 (habove.trans Insertion.holder_prefix)

end Written

/-- What is corrected is corrected again to itself. -/
theorem correct_edited {file : String} {f : Members → Members} (hf : correctionOf file = some f)
    {members properties : Members}
    (hproperties : Members.get? members "properties" = some (.obj properties)) :
    correct file (edited file (.obj members)) = .ok (edited file (.obj members)) := by
  have hedits := edits_edited file (.obj members)
  obtain ⟨outer, houter⟩ : ∃ outer, edited file (.obj members) = .obj outer := by
    obtain ⟨outer, houter⟩ := (hedits.object_iff fun w hw =>
      hw.not_prefix_properties List.nil_prefix).mpr ⟨members, rfl⟩
    exact ⟨outer, Option.some.inj houter⟩
  have hfollow : (Value.obj members).follow? (alongKeys ["properties"]) =
      some (.obj properties) := by
    rw [alongKeys, List.map_cons, Value.follow?_key, Value.get?, hproperties]
    rfl
  obtain ⟨inner, hinner⟩ := (hedits.object_iff fun w hw =>
    hw.not_prefix_properties List.prefix_rfl).mpr ⟨properties, hfollow⟩
  have hget : Members.get? outer "properties" = some (.obj inner) := by
    rw [houter, alongKeys, List.map_cons, Value.follow?_key] at hinner
    obtain ⟨part, hpart, hsame⟩ := Option.bind_eq_some_iff.mp hinner
    rw [← Option.some.inj hsame]
    exact hpart
  have hdeclared := declared_of_get? hget
  refine (correct_eq_ok_iff hf).mpr ⟨outer, inner, houter, hdeclared.symm ▸ hget, ?_⟩
  rw [hdeclared, ← houter, edited_edited]

/-- What is written in the properties of a schema keeps the paths apart from it away from them. -/
theorem ne_properties_of_apart {file : String} {f : Members → Members}
    {members properties : Members} {q : List PathStep} (hf : correctionOf file = some f)
    (hproperties : Members.get? members "properties" = some (.obj properties))
    (hq : ∀ w, Written file (.obj members) w → Apart w q) :
    q ≠ [] ∧ q ≠ alongKeys ["properties"] := by
  obtain ⟨i, hi, hholder⟩ := exists_property_insertion hf
  have happlies : i.Applies (.obj members) := by
    refine ⟨properties, ?_⟩
    rw [hholder, alongKeys, List.map_cons, Value.follow?_key]
    exact congrArg (Option.bind · _) hproperties
  have habove : alongKeys ["properties"] <+: i.position := hholder ▸ Insertion.holder_prefix
  have hapart := (hq _ (.inserted hi happlies)).2
  constructor
  · rintro rfl
    exact hapart List.nil_prefix
  · rintro rfl
    exact hapart habove

/-- A corrected schema is its own correction. It differs from the schema only along the paths
through the positions that are written, where objects keep their keys in order; each insertion
stands where there was an object for it; and where there are chains of operations and an object
for those of side operations, both are the same afterwards. -/
theorem correct_settled {file : String} {schema t : Value} (h : correct file schema = .ok t) :
    correct file t = .ok t ∧
    (∀ q, (∀ w, Written file (withProperties schema) w → Apart w q) →
      t.follow? q = schema.follow? q) ∧
    (∀ q members, (∀ w, Written file (withProperties schema) w → ¬ w <+: q) →
      schema.follow? q = some (.obj members) →
        ∃ members', t.follow? q = some (.obj members') ∧
          Members.keys members <+: Members.keys members') ∧
    (∀ i ∈ insertionsOf file, i.Applies (withProperties schema) →
      t.follow? i.position = some i.value) ∧
    (file = missionFile → ∀ chains side, schema.follow? chainsPosition = some chains →
      chains ≠ .null → schema.follow? (alongKeys sideHolder) = some (.obj side) →
        ∃ chains', t.follow? chainsPosition = some chains' ∧
          t.follow? sidePosition = some chains') := by
  cases hf : correctionOf file with
  | none =>
      obtain ⟨hnone, hmission⟩ := insertionsOf_eq_nil hf
      obtain rfl : schema = t := by
        rw [correct, hf] at h
        exact Except.ok.inj h
      refine ⟨h, fun _ _ => rfl, fun q members _ hq => ⟨members, hq, List.prefix_rfl⟩, ?_,
        fun hfile => absurd hfile hmission⟩
      rw [hnone]
      exact nofun
  | some f =>
      obtain ⟨members, properties, rfl, hproperties, rfl⟩ := (correct_eq_ok_iff hf).mp h
      let declares := withProperties (.obj members)
      have hedits : Edits (Written file declares) declares (edited file declares) :=
        edits_edited file declares
      have hbelow {q : List PathStep} (hq : 1 < q.length) :
          declares.follow? q = (Value.obj members).follow? q := by
        refine follow?_withProperties ?_ ?_
        all_goals
          rintro rfl
          exact absurd hq (by decide)
      refine ⟨correct_edited hf hproperties, ?_, ?_, ?_, ?_⟩
      · intro q hq
        obtain ⟨hroot, hbeyond⟩ := ne_properties_of_apart hf hproperties hq
        exact (hedits.apart q hq).trans (follow?_withProperties hroot hbeyond)
      · intro q inner hq hinner
        obtain ⟨before, hbefore, hkeys⟩ := exists_object_withProperties hinner
        obtain ⟨after, hafter, hmore⟩ := (hbefore ▸ hedits.grown q hq).exists_object
        exact ⟨after, hafter, hkeys.trans hmore⟩
      · intro i hi happlies
        refine (settled_edited i hi).follow? ?_
        exact (hedits.object_iff fun w hw => hw.not_prefix_holder hi).mpr happlies
      · rintro rfl chains side hchains hnull hside
        have hfound : chains? declares = some chains := by
          rw [chains?, hbelow (by decide), hchains]
          cases chains <;> first | rfl | exact absurd rfl hnull
        have hshares : Shares declares :=
          ⟨⟨chains, hfound⟩, side, (hbelow (by decide)).trans hside⟩
        exact shared_shares (shares_applyAll_iff.mpr hshares)

/-- A value below a path of keys. -/
def nested (path : List String) (v : Value) : Value := path.foldr (fun key v => .obj [(key, v)]) v

/-- A mission schema with a trigger in its chains of operations and with side operations. -/
def missionSchema : Value :=
  nested missionsHolder (.obj [
    ("operation_chains", nested ["items", "properties", "chains", "items", "properties", "trigger",
      "items", "properties"] (.obj [])),
    ("side_operations", nested ["properties"] (.obj []))])

/-- That schema as it is corrected. -/
def correctedMission : Value := (correct missionFile missionSchema).toOption.getD .null

theorem correct_settled_mission :
    correct missionFile missionSchema = .ok correctedMission ∧
      correct missionFile correctedMission = .ok correctedMission ∧
      ∃ chains, correctedMission.follow? chainsPosition = some chains ∧
        correctedMission.follow? sidePosition = some chains := by
  have h : correct missionFile missionSchema = .ok correctedMission := rfl
  obtain ⟨hagain, -, -, -, hshared⟩ := correct_settled h
  exact ⟨h, hagain, hshared rfl _ _ rfl nofun rfl⟩

end ModAtlas.Schema
