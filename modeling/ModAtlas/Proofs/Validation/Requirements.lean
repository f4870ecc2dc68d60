import ModAtlas.Proofs.Json.Merging
import ModAtlas.Proofs.Validation.Draft7

/-!
# What an accepted value fulfils

`Accepts root schema value` says that some evaluation ends and finds no violation. An accepted
value has been held against the parts of the schema in turn: each lemma here says what it takes
over from one keyword. What stands beside a `$ref` asks nothing, so all keywords but `$ref` need
a schema without one.
-/

namespace ModAtlas.Validation
open ModAtlas.Json ModAtlas.Document ModAtlas.Text

/-! ## Keywords -/

namespace Check
variable {c : Check} {v part : Value} {step : PathStep}

theorem verdict?_descendTo (schema : Value) :
    (c.descendTo step schema part).verdict? = (c.evaluate c.firstOnly schema part).verdict? := by
  unfold descendTo
  split
  · rfl
  · exact Outcome.verdict?_under _ _

theorem valid_of_allOf {schemas : List Value} (h : (c.allOf (.arr schemas)).verdict? = some true) :
    ∀ schema ∈ schemas, (c.evaluate c.firstOnly schema c.value).verdict? = some true :=
  Outcome.verdict?_each_eq_true.mp h

theorem valid_of_firstValid {schemas untried : List Value} {schema : Value}
    (h : c.firstValid schemas = .found schema untried) :
    schema ∈ schemas ∧ (c.evaluate false schema c.value).verdict? = some true := by
  induction schemas with
  | nil => cases h
  | cons first rest ih =>
      simp only [firstValid] at h
      split at h
      · cases h
      · rename_i hunbroken
        split at h
        · rename_i hempty
          cases h
          refine ⟨List.mem_cons_self, Outcome.verdict?_eq_true.mpr ⟨?_, ?_⟩⟩
          · exact List.isEmpty_iff.mp hempty
          · exact Bool.eq_false_iff.mpr hunbroken
        · obtain ⟨hmem, hvalid⟩ := ih h
          exact ⟨List.mem_cons_of_mem _ hmem, hvalid⟩

theorem exists_valid_of_anyOf {branches : List Value}
    (h : (c.anyOf (.arr branches)).verdict? = some true) :
    ∃ branch ∈ branches, (c.evaluate false branch c.value).verdict? = some true := by
  simp only [anyOf, elements?] at h
  split at h
  · cases h
  · cases h
  · rename_i branch untried htried
    exact ⟨branch, valid_of_firstValid htried⟩

theorem exists_valid_of_oneOf {branches : List Value}
    (h : (c.oneOf (.arr branches)).verdict? = some true) :
    ∃ branch ∈ branches, (c.evaluate false branch c.value).verdict? = some true := by
  simp only [oneOf, elements?] at h
  split at h
  · cases h
  · cases h
  · rename_i branch untried htried
    exact ⟨branch, valid_of_firstValid htried⟩

theorem valid_of_conditional (h : (c.conditional v).verdict? = some true) :
    ∃ a, c.accepts? v c.value = some a ∧
      ∀ schema, Members.get? c.schema (if a then "then" else "else") = some schema →
        (c.evaluate c.firstOnly schema c.value).verdict? = some true := by
  unfold conditional at h
  split at h
  · cases h
  · rename_i a ha
    refine ⟨a, ha, fun schema hschema => ?_⟩
    rw [hschema] at h
    exact h

theorem valid_of_reference (h : (c.reference v).verdict? = some true) :
    ∃ ref schema, v = .str ref ∧ target? c.root ref = some schema ∧
      (c.evaluate c.firstOnly schema c.value).verdict? = some true := by
  unfold reference at h
  split at h
  · cases h
  · rename_i schema htarget
    obtain ⟨ref, href, htarget⟩ := Option.bind_eq_some_iff.mp htarget
    cases v <;> cases href
    exact ⟨ref, schema, rfl, htarget, h⟩

section Members
variable {members : Members} (hvalue : c.value = .obj members)
include hvalue

theorem valid_of_properties (h : (c.properties v).verdict? = some true) :
    ∃ schemas, v = .obj schemas ∧ ∀ p ∈ schemas, ∀ part, members.get? p.1 = some part →
      (c.evaluate c.firstOnly p.2 part).verdict? = some true := by
  simp only [properties, hvalue] at h
  split at h
  · rename_i schemas
    refine ⟨schemas, rfl, fun p hp part hpart => ?_⟩
    have hp := Outcome.verdict?_each_eq_true.mp h p hp
    simp only [hpart] at hp
    rwa [verdict?_descendTo] at hp
  · cases h

theorem valid_of_patternProperties (h : (c.patternProperties v).verdict? = some true) :
    ∃ schemas, v = .obj schemas ∧ ∀ p ∈ schemas, ∀ m ∈ members, Pattern.test p.1 m.1 = true →
      (c.evaluate c.firstOnly p.2 m.2).verdict? = some true := by
  simp only [patternProperties, hvalue] at h
  split at h
  · rename_i schemas
    refine ⟨schemas, rfl, fun p hp m hm htest => ?_⟩
    have hp := Outcome.verdict?_each_eq_true.mp h p hp
    have hm := Outcome.verdict?_each_eq_true.mp hp m hm
    split at hm
    · cases hm
    · rename_i pattern hread
      have hsearch : pattern.search m.1.toList = true := by
        rwa [Pattern.test, hread] at htest
      rwa [if_pos hsearch, verdict?_descendTo] at hm
  · cases h

theorem valid_of_additionalProperties {schema : Members}
    (h : (c.additionalProperties (.obj schema)).verdict? = some true) :
    ∃ joined extra, joinedPatterns? c.schema = some joined ∧
      extraKeys? c.schema joined members.keys = some extra ∧
      ∀ key ∈ extra, ∀ part, members.get? key = some part →
        (c.evaluate c.firstOnly (.obj schema) part).verdict? = some true := by
  simp only [additionalProperties, hvalue] at h
  split at h
  · cases h
  · rename_i extra hextra
    obtain ⟨joined, hjoined, hextra⟩ := Option.bind_eq_some_iff.mp hextra
    refine ⟨joined, extra, hjoined, hextra, fun key hkey part hpart => ?_⟩
    have hkey := Outcome.verdict?_each_eq_true.mp h key hkey
    simp only [hpart] at hkey
    rwa [verdict?_descendTo] at hkey

end Members

section Items
variable {values : List Value} (hvalue : c.value = .arr values)
include hvalue

theorem valid_of_items {schema : Members} (h : (c.items (.obj schema)).verdict? = some true)
    {index : Nat} (hpart : values[index]? = some part) :
    (c.evaluate c.firstOnly (.obj schema) part).verdict? = some true := by
  simp only [items, hvalue] at h
  have hindexed := Outcome.verdict?_each_eq_true.mp h (index, part)
    (Schema.Matching.mem_range_zip.mpr hpart)
  rwa [verdict?_descendTo] at hindexed

theorem valid_of_itemsInTurn {schemas : List Value}
    (h : (c.items (.arr schemas)).verdict? = some true) {index : Nat} {schema : Value}
    (hpart : values[index]? = some part) (hschema : schemas[index]? = some schema) :
    (c.evaluate c.firstOnly schema part).verdict? = some true := by
  simp only [items, hvalue] at h
  obtain ⟨hlt, rfl⟩ := List.getElem?_eq_some_iff.mp hpart
  have hmem : ((index, values[index]), schema) ∈ (indexed values).zip schemas := by
    apply List.mem_iff_getElem?.mpr
    exact ⟨index, List.getElem?_zip_eq_some.mpr ⟨by simp [indexed, hlt], hschema⟩⟩
  have hindexed := Outcome.verdict?_each_eq_true.mp h _ hmem
  rwa [verdict?_descendTo] at hindexed

theorem valid_of_additionalItems {schemas : List Value} {schema : Members}
    (hitems : Members.get? c.schema "items" = some (.arr schemas))
    (h : (c.additionalItems (.obj schema)).verdict? = some true) {index : Nat}
    (hbeyond : schemas.length ≤ index) (hpart : values[index]? = some part) :
    (c.evaluate c.firstOnly (.obj schema) part).verdict? = some true := by
  simp only [additionalItems, hvalue, hitems, Option.getD_some, elements?] at h
  obtain ⟨hlt, rfl⟩ := List.getElem?_eq_some_iff.mp hpart
  have hmem : (index, values[index]) ∈ (indexed values).drop schemas.length := by
    apply List.mem_iff_getElem?.mpr
    refine ⟨index - schemas.length, ?_⟩
    rw [List.getElem?_drop, Nat.add_sub_cancel' hbeyond]
    simp [indexed, hlt]
  have hindexed := Outcome.verdict?_each_eq_true.mp h _ hmem
  rwa [verdict?_descendTo] at hindexed

end Items

/-! ### Members that no other keyword mentions -/

theorem mem_extraKeys {schema : Members} {joined name : String} {keys extra : List String}
    (h : extraKeys? schema joined keys = some extra) (hname : name ∈ keys)
    (hmentions : mentions? ((Members.get? schema "properties").getD (.obj [])) name = some false)
    (hunfitting : joined.isEmpty = false → Pattern.test joined name = false) :
    name ∈ extra := by
  induction keys generalizing extra with
  | nil => cases hname
  | cons key keys ih =>
      have hlater {found : List String} (hfound : extraKeys? schema joined keys = some found)
          (hne : name ≠ key) : name ∈ found := ih hfound (List.mem_of_ne_of_mem hne hname)
      have hkept {found : List String}
          (hfound : (extraKeys? schema joined keys).map (key :: ·) = some found) :
          name ∈ found := by
        obtain ⟨more, hmore, rfl⟩ := Option.map_eq_some_iff.mp hfound
        by_cases hne : name = key
        · exact List.mem_cons.mpr (.inl hne)
        · exact List.mem_cons_of_mem _ (hlater hmore hne)
      rw [extraKeys?] at h
      split at h
      · cases h
      · rename_i hmentioned
        apply hlater h
        rintro rfl
        cases hmentions.symm.trans hmentioned
      · split at h
        · exact hkept h
        · rename_i hjoined
          have hsearch := hunfitting (Bool.eq_false_iff.mpr hjoined)
          split at h
          · cases h
          · rename_i p hread
            rw [Pattern.test, hread] at hsearch
            split at h
            · rename_i hfound
              apply hlater h
              rintro rfl
              cases hsearch.symm.trans hfound
            · exact hkept h

theorem joinedPatterns?_of_obj {schema patterns : Members}
    (h : Members.get? schema "patternProperties" = some (.obj patterns)) :
    joinedPatterns? schema = some (join "|" patterns.keys) := by
  have htexts (keys : List String) : (keys.map Value.str).mapM Value.text? = some keys := by
    induction keys with
    | nil => rfl
    | cons key keys ih => simp [Value.text?, ih]
  simp only [joinedPatterns?, h, elements?, Option.bind_some, htexts, Option.map_some]

end Check

/-! ## Accepted values -/

/-- Some evaluation of the value ends and finds no violation. -/
def Accepts (root schema value : Value) : Prop :=
  ∃ fuel firstOnly, (evaluate root fuel firstOnly schema value).verdict? = some true

variable {root schema value : Value}

/-- Evaluations that come to a verdict come to the same. -/
theorem verdict?_unique {fuel fuel' : Nat} {b b' a a' : Bool}
    (h : (evaluate root fuel b schema value).verdict? = some a)
    (h' : (evaluate root fuel' b' schema value).verdict? = some a') : a = a' := by
  have hfirst :=
    (carriesOver_evaluate root (Nat.le_max_left fuel fuel') b true schema value).verdict
  have hsecond :=
    (carriesOver_evaluate root (Nat.le_max_right fuel fuel') b' true schema value).verdict
  exact Option.some.inj ((hfirst a h).symm.trans (hsecond a' h'))

namespace Accepts

theorem of_accepts? (h : accepts? root schema value = some true) : Accepts root schema value :=
  ⟨_, _, h⟩

/-- An accepted value is not refused, though an evaluation may break off before it is accepted. -/
theorem not_refuses (h : Accepts root schema value) :
    ¬ (Validator.standard root).Refuses schema value := by
  obtain ⟨fuel, b, hvalid⟩ := h
  intro hrefused
  exact Bool.false_ne_true (verdict?_unique hrefused hvalid)

section Keywords
variable {members : Members} (h : Accepts root (.obj members) value)
include h

/-- What is written beside a `$ref` asks nothing, and the `$ref` leads to a schema. -/
theorem reference {v : Value} (hmember : members.get? "$ref" = some v) (hv : v ≠ .null) :
    ∃ ref schema, v = .str ref ∧ target? root ref = some schema ∧ Accepts root schema value := by
  obtain ⟨fuel, b, h⟩ := h
  cases fuel with
  | zero => cases h
  | succ fuel =>
      simp only [evaluate, hmember, Option.getD_some] at h
      obtain ⟨ref, schema, rfl, htarget, hvalid⟩ := Check.valid_of_reference h
      exact ⟨ref, schema, rfl, htarget, fuel, b, hvalid⟩

variable (hsole : (members.get? "$ref").getD .null = .null)
include hsole

/-- Without a `$ref` every keyword is fulfilled. -/
theorem keyword : ∃ fuel b, ∀ name v, members.get? name = some v →
    ((Check.mk (evaluate root fuel) root b members value).keyword name v).verdict? = some true := by
  obtain ⟨fuel, b, h⟩ := h
  cases fuel with
  | zero => cases h
  | succ fuel =>
      simp only [evaluate, hsole] at h
      refine ⟨fuel, b, fun name v hmember => ?_⟩
      exact Outcome.verdict?_each_eq_true.mp h (name, v) (Members.mem_of_get? hmember)

theorem allOf {schemas : List Value} (hmember : members.get? "allOf" = some (.arr schemas)) :
    ∀ schema ∈ schemas, Accepts root schema value := by
  obtain ⟨fuel, b, hkeyword⟩ := h.keyword hsole
  intro schema hschema
  exact ⟨fuel, b, Check.valid_of_allOf (hkeyword _ _ hmember) schema hschema⟩

theorem branches {keyword : String} {branches : List Value}
    (hbranching : keyword = "anyOf" ∨ keyword = "oneOf")
    (hmember : members.get? keyword = some (.arr branches)) :
    ∃ branch ∈ branches, Accepts root branch value := by
  obtain ⟨fuel, b, hkeyword⟩ := h.keyword hsole
  rcases hbranching with rfl | rfl
  · obtain ⟨branch, hbranch, hvalid⟩ := Check.exists_valid_of_anyOf (hkeyword _ _ hmember)
    exact ⟨branch, hbranch, fuel, false, hvalid⟩
  · obtain ⟨branch, hbranch, hvalid⟩ := Check.exists_valid_of_oneOf (hkeyword _ _ hmember)
    exact ⟨branch, hbranch, fuel, false, hvalid⟩

/-- The branch of a condition that its verdict chooses. -/
theorem conditional {condition : Value} (hmember : members.get? "if" = some condition)
    {a : Bool} (ha : accepts? root condition value = some a)
    (hbranch : members.get? (if a then "then" else "else") = some schema) :
    Accepts root schema value := by
  obtain ⟨fuel, b, hkeyword⟩ := h.keyword hsole
  obtain ⟨a', ha', hvalid⟩ := Check.valid_of_conditional (hkeyword _ _ hmember)
  obtain rfl : a = a' := verdict?_unique ha ha'
  exact ⟨fuel, b, hvalid schema hbranch⟩

end Keywords

section Parts
variable {members parts : Members} (h : Accepts root (.obj members) (.obj parts))
  (hsole : (members.get? "$ref").getD .null = .null)
include h hsole

theorem properties {v : Value} (hmember : members.get? "properties" = some v) :
    ∃ schemas, v = .obj schemas ∧ ∀ name schema part, Members.get? schemas name = some schema →
      parts.get? name = some part → Accepts root schema part := by
  obtain ⟨fuel, b, hkeyword⟩ := h.keyword hsole
  obtain ⟨schemas, rfl, hvalid⟩ := Check.valid_of_properties rfl (hkeyword _ _ hmember)
  refine ⟨schemas, rfl, fun name schema part hschema hpart => ⟨fuel, b, ?_⟩⟩
  exact hvalid (name, schema) (Members.mem_of_get? hschema) part hpart

theorem patternProperties {v : Value} (hmember : members.get? "patternProperties" = some v) :
    ∃ schemas, v = .obj schemas ∧ ∀ p ∈ schemas, ∀ name part, parts.get? name = some part →
      Pattern.test p.1 name = true → Accepts root p.2 part := by
  obtain ⟨fuel, b, hkeyword⟩ := h.keyword hsole
  obtain ⟨schemas, rfl, hvalid⟩ := Check.valid_of_patternProperties rfl (hkeyword _ _ hmember)
  refine ⟨schemas, rfl, fun p hp name part hpart htest => ⟨fuel, b, ?_⟩⟩
  exact hvalid p hp (name, part) (Members.mem_of_get? hpart) htest

theorem additionalProperties {schema : Members}
    (hmember : members.get? "additionalProperties" = some (.obj schema)) :
    ∃ joined extra, Check.joinedPatterns? members = some joined ∧
      Check.extraKeys? members joined parts.keys = some extra ∧
      ∀ name ∈ extra, ∀ part, parts.get? name = some part → Accepts root (.obj schema) part := by
  obtain ⟨fuel, b, hkeyword⟩ := h.keyword hsole
  obtain ⟨joined, extra, hjoined, hextra, hvalid⟩ :=
    Check.valid_of_additionalProperties rfl (hkeyword _ _ hmember)
  exact ⟨joined, extra, hjoined, hextra, fun name hname part hpart =>
    ⟨fuel, b, hvalid name hname part hpart⟩⟩

open Schema.Matching (Declares) in
/-- A member for which there is neither a declared schema nor a matching pattern. -/
theorem additionalProperty {schema : Members} {name : String} {part : Value}
    (hpart : parts.get? name = some part) (undeclared : ∀ s, ¬ Declares members name s)
    (unfitting : patternsOf members ≠ [] →
      Pattern.test (join "|" (patternsOf members)) name = false)
    (hmember : members.get? "additionalProperties" = some (.obj schema)) :
    Accepts root (.obj schema) part := by
  obtain ⟨joined, extra, hjoined, hextra, hvalid⟩ := h.additionalProperties hsole hmember
  have hname : name ∈ parts.keys := List.mem_map.mpr ⟨_, Members.mem_of_get? hpart, rfl⟩
  refine hvalid name (Check.mem_extraKeys hextra hname ?_ ?_) part hpart
  · cases hproperties : members.get? "properties" with
    | none => rfl
    | some v =>
        obtain ⟨schemas, rfl, -⟩ := h.properties hsole hproperties
        have hfree : Members.get? schemas name = none := by
          apply Option.eq_none_iff_forall_ne_some.mpr
          intro s hs
          exact undeclared s ⟨schemas, hproperties, hs⟩
        exact congrArg some (Members.has_eq_false hfree)
  · intro hne
    cases hpatterns : members.get? "patternProperties" with
    | none =>
        rw [Check.joinedPatterns?, hpatterns] at hjoined
        cases hjoined
        cases hne
    | some v =>
        obtain ⟨patterns, rfl, -⟩ := h.patternProperties hsole hpatterns
        cases (Check.joinedPatterns?_of_obj hpatterns).symm.trans hjoined
        have hkeys : patternsOf members = Members.keys patterns := by rw [patternsOf, hpatterns]
        rw [hkeys] at unfitting
        apply unfitting
        intro hnone
        rw [hnone] at hne
        cases hne

end Parts

section Items
variable {members : Members} {values : List Value} {index : Nat} {part : Value}
  (h : Accepts root (.obj members) (.arr values))
  (hsole : (members.get? "$ref").getD .null = .null) (hpart : values[index]? = some part)
include h hsole hpart

theorem items {schema : Members} (hmember : members.get? "items" = some (.obj schema)) :
    Accepts root (.obj schema) part := by
  obtain ⟨fuel, b, hkeyword⟩ := h.keyword hsole
  exact ⟨fuel, b, Check.valid_of_items rfl (hkeyword _ _ hmember) hpart⟩

theorem itemsInTurn {schemas : List Value} (hmember : members.get? "items" = some (.arr schemas))
    (hschema : schemas[index]? = some schema) : Accepts root schema part := by
  obtain ⟨fuel, b, hkeyword⟩ := h.keyword hsole
  exact ⟨fuel, b, Check.valid_of_itemsInTurn rfl (hkeyword _ _ hmember) hpart hschema⟩

theorem additionalItems {schemas : List Value} {schema : Members}
    (hmember : members.get? "items" = some (.arr schemas)) (hbeyond : schemas.length ≤ index)
    (hadditional : members.get? "additionalItems" = some (.obj schema)) :
    Accepts root (.obj schema) part := by
  obtain ⟨fuel, b, hkeyword⟩ := h.keyword hsole
  exact ⟨fuel, b,
    Check.valid_of_additionalItems rfl hmember (hkeyword _ _ hadditional) hbeyond hpart⟩

end Items
end Accepts

/-! ## The validator that runs -/

theorem accepts_of_counts {members : Members}
    (h : (Validator.standard root).Counts root members value) :
    Accepts root (.obj members) value := .of_accepts? h.valid

/-- The validator that runs is a validator of draft 7. -/
theorem isDraft7_standard (root : Value) :
    (Validator.standard root).IsDraft7 root Pattern.test (target? root) where
  whole none := Accepts.not_refuses ⟨_, _, none⟩
  telling value := kept_telling.violations root value
  reference _ valid member present := by
    obtain ⟨ref, schema, rfl, htarget, haccepts⟩ := (Accepts.of_accepts? valid).reference member
      present
    refine ⟨ref, rfl, fun schema' htarget' _ => ?_⟩
    cases htarget.symm.trans htarget'
    exact haccepts.not_refuses
  literal _ isLiteral isLocal leads := target?_of_resolve isLiteral isLocal leads
  allOf h member item _ := ((accepts_of_counts h).allOf h.sole member _ item).not_refuses
  branches h isBranching member _ := by
    obtain ⟨schema, hschema, haccepts⟩ := (accepts_of_counts h).branches h.sole isBranching member
    exact ⟨schema, hschema, haccepts.not_refuses⟩
  conditional h member decided branch _ :=
    ((accepts_of_counts h).conditional h.sole member decided branch).not_refuses
  properties h there declared _ := by
    obtain ⟨schemas, hschemas, hname⟩ := declared
    obtain ⟨schemas', heq, haccepts⟩ := (accepts_of_counts h).properties h.sole hschemas
    cases heq
    exact (haccepts _ _ _ hname there).not_refuses
  patternProperties h there fits _ := by
    obtain ⟨schemas, hschemas, hmem, htest⟩ := fits
    obtain ⟨schemas', heq, haccepts⟩ := (accepts_of_counts h).patternProperties h.sole hschemas
    cases heq
    exact (haccepts _ hmem _ _ there htest).not_refuses
  additionalProperties h there undeclared unfitting member _ :=
    ((accepts_of_counts h).additionalProperty h.sole there undeclared unfitting member).not_refuses
  items h there member _ := ((accepts_of_counts h).items h.sole there member).not_refuses
  itemsInTurn h there member own _ :=
    ((accepts_of_counts h).itemsInTurn h.sole there member own).not_refuses
  additionalItems h there member beyond additional _ :=
    ((accepts_of_counts h).additionalItems h.sole there member beyond additional).not_refuses

end ModAtlas.Validation
