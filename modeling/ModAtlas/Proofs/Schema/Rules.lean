import Mathlib.Data.List.Basic
import ModAtlas.Schema.Matching

/-!
# The rules of matching

`HandsOn` states the rules by which a subschema that governs a place hands schemas on, one
constructor for each rule. `handedOn` lists what the rules give, as far as no rule breaks off.
-/

namespace ModAtlas.Schema.Matching
open ModAtlas.Json ModAtlas.Document

/-! ## Parts of places -/

/-- A property of an object: its name and the place of its value. -/
def IsProperty (object : Place) (name : String) (value : Place) : Prop :=
  (∃ span properties, object.node = .object span properties) ∧
    ∃ p ∈ object.children, p.node.name?.getD "" = name ∧ p.value? = some value

/-- An item of an array and its index. -/
def IsItem (array : Place) (index : Nat) (item : Place) : Prop :=
  (∃ span items, array.node = .array span items) ∧ array.children[index]? = some item

/-- Under `properties` a subschema has a schema for a name. -/
def Declares (members : Members) (name : String) (schema : Value) : Prop :=
  ∃ schemas, Members.get? members "properties" = some (.obj schemas) ∧
    Members.get? schemas name = some schema

/-- Under `patternProperties` a subschema has a schema for a pattern that a name matches. -/
def Fits (test : PatternTest) (members : Members) (name pattern : String) (schema : Value) :
    Prop :=
  ∃ schemas, Members.get? members "patternProperties" = some (.obj schemas) ∧
    (pattern, schema) ∈ schemas ∧ test pattern name = true

/-! ## Rules -/

/-- By one rule a subschema that governs a place hands a schema on. -/
inductive HandsOn (root : Value) (valid : Validity) (test : PatternTest) (m : Match) :
    Handing → Prop
  | reference {ref schema : Value} {target : String}
      (member : Members.get? m.members "$ref" = some ref)
      (isLocal : Pointer.localTarget? ref = some target)
      (leads : Pointer.resolve root target = .ok (some schema)) :
      HandsOn root valid test m ⟨target, schema, m.place⟩
  | allOf {schemas : List Value} {index : Nat} {schema : Value}
      (member : Members.get? m.members "allOf" = some (.arr schemas))
      (item : schemas[index]? = some schema) :
      HandsOn root valid test m
        ⟨Pointer.item (Pointer.child m.pointer "allOf") index, schema, m.place⟩
  | validBranch {keyword : String} {branches : List Value} {index : Nat} {branch : Value}
      (isBranching : keyword = "anyOf" ∨ keyword = "oneOf")
      (member : Members.get? m.members keyword = some (.arr branches))
      (item : branches[index]? = some branch)
      (isValid : valid branch m.place.node.toValue = true) :
      HandsOn root valid test m
        ⟨Pointer.item (Pointer.child m.pointer keyword) index, branch, m.place⟩
  | anyBranch {keyword : String} {branches : List Value} {index : Nat} {branch : Value}
      (isBranching : keyword = "anyOf" ∨ keyword = "oneOf")
      (member : Members.get? m.members keyword = some (.arr branches))
      (item : branches[index]? = some branch)
      (noneValid : ∀ b ∈ branches, valid b m.place.node.toValue = false) :
      HandsOn root valid test m
        ⟨Pointer.item (Pointer.child m.pointer keyword) index, branch, m.place⟩
  | consequent {condition schema : Value}
      (member : Members.get? m.members "if" = some condition)
      (isValid : valid condition m.place.node.toValue = true)
      (branch : Members.get? m.members "then" = some schema) :
      HandsOn root valid test m ⟨Pointer.child m.pointer "then", schema, m.place⟩
  | alternative {condition schema : Value}
      (member : Members.get? m.members "if" = some condition)
      (isInvalid : valid condition m.place.node.toValue = false)
      (branch : Members.get? m.members "else" = some schema) :
      HandsOn root valid test m ⟨Pointer.child m.pointer "else", schema, m.place⟩
  | property {name : String} {value : Place} {schema : Value}
      (part : IsProperty m.place name value) (declared : Declares m.members name schema) :
      HandsOn root valid test m
        ⟨Pointer.child (Pointer.child m.pointer "properties") name, schema, value⟩
  | patternProperty {name pattern : String} {value : Place} {schema : Value}
      (part : IsProperty m.place name value) (fits : Fits test m.members name pattern schema) :
      HandsOn root valid test m
        ⟨Pointer.child (Pointer.child m.pointer "patternProperties") pattern, schema, value⟩
  | additionalProperty {name : String} {value : Place} {schema : Members}
      (part : IsProperty m.place name value) (undeclared : ∀ s, ¬ Declares m.members name s)
      (unfitting : ∀ pattern s, ¬ Fits test m.members name pattern s)
      (member : Members.get? m.members "additionalProperties" = some (.obj schema)) :
      HandsOn root valid test m ⟨Pointer.child m.pointer "additionalProperties", .obj schema, value⟩
  | items {index : Nat} {item : Place} {schema : Members}
      (part : IsItem m.place index item)
      (member : Members.get? m.members "items" = some (.obj schema)) :
      HandsOn root valid test m ⟨Pointer.child m.pointer "items", .obj schema, item⟩
  | itemAt {index : Nat} {item : Place} {schemas : List Value} {schema : Value}
      (part : IsItem m.place index item)
      (member : Members.get? m.members "items" = some (.arr schemas))
      (own : schemas[index]? = some schema) :
      HandsOn root valid test m ⟨Pointer.item (Pointer.child m.pointer "items") index, schema, item⟩
  | additionalItem {index : Nat} {item : Place} {schemas : List Value} {schema : Members}
      (part : IsItem m.place index item)
      (member : Members.get? m.members "items" = some (.arr schemas))
      (beyond : schemas.length ≤ index)
      (additional : Members.get? m.members "additionalItems" = some (.obj schema)) :
      HandsOn root valid test m ⟨Pointer.child m.pointer "additionalItems", .obj schema, item⟩

/-! ## Lists of handings -/

theorem mem_range_zip {α : Type} {l : List α} {p : Nat × α} :
    p ∈ (List.range l.length).zip l ↔ l[p.1]? = some p.2 := by
  obtain ⟨i, x⟩ := p
  rw [List.mem_iff_getElem?]
  constructor
  · rintro ⟨j, hj⟩
    obtain ⟨hi, hx⟩ := List.getElem?_zip_eq_some.mp hj
    obtain ⟨_, hij⟩ := List.getElem?_eq_some_iff.mp hi
    obtain rfl : j = i := by simpa using hij
    exact hx
  · intro h
    obtain ⟨hlt, -⟩ := List.getElem?_eq_some_iff.mp h
    exact ⟨i, List.getElem?_zip_eq_some.mpr ⟨by simp [hlt], h⟩⟩

theorem present?_eq_some_iff {members : Members} {key : String} {v : Value} :
    present? members key = some v ↔ Members.get? members key = some v ∧ v.isTruthy = true := by
  rw [present?, Option.filter_eq_some_iff]

section Sound
variable {root : Value} {valid : Validity} {test : PatternTest} {m : Match} {h : Handing}

theorem handsOn_of_byReference (hmem : .ok h ∈ byReference root m.members m.place) :
    HandsOn root valid test m h := by
  unfold byReference at hmem
  split at hmem
  · cases hmem
  · rename_i target hlocal
    split at hmem
    · simp at hmem
    · cases hmem
    · rename_i schema hresolve
      obtain rfl : h = ⟨target, schema, m.place⟩ := by simpa using hmem
      cases href : Members.get? m.members "$ref" with
      | none =>
          rw [href] at hlocal
          cases hlocal
      | some ref =>
          rw [href] at hlocal
          exact .reference href hlocal hresolve

theorem handsOn_of_byAllOf (hmem : .ok h ∈ byAllOf m.pointer m.members m.place) :
    HandsOn root valid test m h := by
  unfold byAllOf at hmem
  split at hmem
  · cases hmem
  · rename_i schemas hpresent
    obtain ⟨⟨index, schema⟩, hp, heq⟩ := List.mem_map.mp hmem
    cases heq
    exact .allOf (present?_eq_some_iff.mp hpresent).1 (mem_range_zip.mp hp)
  · simp at hmem
  · simp at hmem
  · cases hmem

theorem handsOn_of_byBranches {keyword : String} (hkeyword : keyword = "anyOf" ∨ keyword = "oneOf")
    (hmem : .ok h ∈ byBranches valid keyword m.pointer m.members m.place) :
    HandsOn root valid test m h := by
  unfold byBranches at hmem
  split at hmem
  · rename_i branches hget
    obtain ⟨⟨index, branch⟩, hp, heq⟩ := List.mem_map.mp hmem
    cases heq
    split at hp
    · rename_i hnone
      refine .anyBranch hkeyword hget (mem_range_zip.mp hp) fun b hb => ?_
      by_contra hvalid
      obtain ⟨i, hi⟩ := List.mem_iff_getElem?.mp hb
      have hchosen := List.filter_eq_nil_iff.mp (List.isEmpty_iff.mp hnone) (i, b)
        (mem_range_zip.mpr hi)
      exact hchosen (by simpa using hvalid)
    · obtain ⟨hall, hvalid⟩ := List.mem_filter.mp hp
      exact .validBranch hkeyword hget (mem_range_zip.mp hall) hvalid
  · cases hmem

theorem handsOn_of_byCondition (hmem : .ok h ∈ byCondition valid m.pointer m.members m.place) :
    HandsOn root valid test m h := by
  unfold byCondition at hmem
  split at hmem
  · cases hmem
  · rename_i condition hif
    cases hvalid : valid condition m.place.node.toValue with
    | true =>
        simp only [hvalid, if_true] at hmem
        split at hmem
        · cases hmem
        · rename_i schema hthen
          obtain rfl : h = _ := by simpa using hmem
          exact .consequent hif hvalid hthen
    | false =>
        simp only [hvalid, Bool.false_eq_true, if_false] at hmem
        split at hmem
        · cases hmem
        · rename_i schema helse
          obtain rfl : h = _ := by simpa using hmem
          exact .alternative hif hvalid helse

theorem declaredFor_eq_ok {members : Members} {name : String} {declared : Option Value}
    (hdeclared : declaredFor members name = .ok declared) (schema : Value) :
    declared = some schema ↔ Declares members name schema := by
  unfold declaredFor at hdeclared
  split at hdeclared
  · rename_i hpresent
    cases hdeclared
    constructor
    · intro h
      cases h
    · rintro ⟨schemas, hget, hname⟩
      have htruthy : (Value.obj schemas).isTruthy = true := by
        cases schemas with
        | nil => cases hname
        | cons p rest => rfl
      rw [present?_eq_some_iff.mpr ⟨hget, htruthy⟩] at hpresent
      cases hpresent
  · rename_i schemas hpresent
    cases hdeclared
    have hget := (present?_eq_some_iff.mp hpresent).1
    constructor
    · intro h
      exact ⟨schemas, hget, h⟩
    · rintro ⟨schemas', hget', hname⟩
      cases hget.symm.trans hget'
      exact hname
  · rename_i v hshape hpresent
    split at hdeclared
    · cases hdeclared
      constructor
      · intro h
        cases h
      · rintro ⟨schemas, hget, -⟩
        cases (present?_eq_some_iff.mp hpresent).1.symm.trans hget
        exact absurd rfl (hshape schemas)
    · cases hdeclared

theorem patternsFor_eq_ok {members : Members} {name : String} {patterns : Members}
    (hpatterns : patternsFor test members name = .ok patterns) (pattern : String) (schema : Value) :
    (pattern, schema) ∈ patterns ↔ Fits test members name pattern schema := by
  unfold patternsFor at hpatterns
  split at hpatterns
  · rename_i hpresent
    cases hpatterns
    constructor
    · intro h
      cases h
    · rintro ⟨schemas, hget, hmem, -⟩
      have htruthy : (Value.obj schemas).isTruthy = true := by
        cases schemas with
        | nil => cases hmem
        | cons p rest => rfl
      rw [present?_eq_some_iff.mpr ⟨hget, htruthy⟩] at hpresent
      cases hpresent
  · rename_i schemas hpresent
    cases hpatterns
    have hget := (present?_eq_some_iff.mp hpresent).1
    rw [List.mem_filter]
    constructor
    · rintro ⟨hmem, htest⟩
      exact ⟨schemas, hget, hmem, htest⟩
    · rintro ⟨schemas', hget', hmem, htest⟩
      cases hget.symm.trans hget'
      exact ⟨hmem, htest⟩
  · cases hpatterns

theorem handsOn_of_byProperty {p : Place}
    (hobject : ∃ span properties, m.place.node = .object span properties)
    (hp : p ∈ m.place.children) (hmem : .ok h ∈ byProperty test m.pointer m.members p) :
    HandsOn root valid test m h := by
  unfold byProperty at hmem
  split at hmem
  · cases hmem
  rename_i value hvalue
  have hpart : IsProperty m.place (p.node.name?.getD "") value := ⟨hobject, p, hp, rfl, hvalue⟩
  dsimp only at hmem
  split at hmem
  · simp at hmem
  rename_i declared hdeclared
  have hown : .ok h ∈ declared.toList.map (fun schema => (Except.ok ⟨Pointer.child
      (Pointer.child m.pointer "properties") (p.node.name?.getD ""), schema, value⟩ :
        Except MatchError Handing)) → HandsOn root valid test m h := by
    intro hown
    obtain ⟨schema, hschema, heq⟩ := List.mem_map.mp hown
    cases heq
    exact .property hpart ((declaredFor_eq_ok hdeclared schema).mp (Option.mem_toList.mp hschema))
  split at hmem
  · rcases List.mem_append.mp hmem with hmem | hmem
    · exact hown hmem
    · simp at hmem
  rename_i patterns hpatterns
  split at hmem
  · rcases List.mem_append.mp hmem with hmem | hmem
    · exact hown hmem
    · obtain ⟨⟨pattern, schema⟩, hpattern, heq⟩ := List.mem_map.mp hmem
      cases heq
      exact .patternProperty hpart ((patternsFor_eq_ok hpatterns pattern schema).mp hpattern)
  · rename_i hneither
    split at hmem
    · rename_i schema hadditional
      obtain rfl : h = _ := by simpa using hmem
      refine .additionalProperty hpart (fun s hs => ?_) (fun pattern s hs => ?_) hadditional
      · simp [(declaredFor_eq_ok hdeclared s).mpr hs] at hneither
      · have hin := (patternsFor_eq_ok hpatterns pattern s).mpr hs
        cases hempty : patterns with
        | nil => simp [hempty] at hin
        | cons q rest => simp [hempty] at hneither
    · cases hmem

theorem handsOn_of_byItem {index : Nat} {item : Place} (hpart : IsItem m.place index item)
    (hmem : .ok h ∈ byItem m.pointer m.members index item) : HandsOn root valid test m h := by
  unfold byItem at hmem
  split at hmem
  · rename_i schema hitems
    obtain rfl : h = _ := by simpa using hmem
    exact .items hpart hitems
  · rename_i schemas hitems
    split at hmem
    · rename_i schema hown
      obtain rfl : h = _ := by simpa using hmem
      exact .itemAt hpart hitems hown
    · rename_i hbeyond
      split at hmem
      · rename_i schema hadditional
        obtain rfl : h = _ := by simpa using hmem
        exact .additionalItem hpart hitems (List.getElem?_eq_none_iff.mp hbeyond) hadditional
      · cases hmem
  · cases hmem

theorem handsOn_of_byParts (hmem : .ok h ∈ byParts test m.pointer m.members m.place) :
    HandsOn root valid test m h := by
  unfold byParts at hmem
  split at hmem
  · rename_i span properties hnode
    obtain ⟨p, hp, hmem⟩ := List.mem_flatMap.mp hmem
    exact handsOn_of_byProperty ⟨span, properties, hnode⟩ hp hmem
  · rename_i span items hnode
    obtain ⟨p, hp, hmem⟩ := List.mem_flatMap.mp hmem
    exact handsOn_of_byItem ⟨⟨span, items, hnode⟩, mem_range_zip.mp hp⟩ hmem
  · cases hmem

/-- What is handed on is handed on by a rule. -/
theorem handsOn_of_mem (hmem : .ok h ∈ handedOn root valid test m.pointer m.members m.place) :
    HandsOn root valid test m h := by
  simp only [handedOn, List.mem_append] at hmem
  rcases hmem with ((((hmem | hmem) | hmem) | hmem) | hmem) | hmem
  · exact handsOn_of_byReference hmem
  · exact handsOn_of_byAllOf hmem
  · exact handsOn_of_byBranches (.inl rfl) hmem
  · exact handsOn_of_byBranches (.inr rfl) hmem
  · exact handsOn_of_byCondition hmem
  · exact handsOn_of_byParts hmem

end Sound

/-! ## Nothing is left out -/

section Complete
variable {root : Value} {valid : Validity} {test : PatternTest} {m : Match}

theorem mem_byReference {ref schema : Value} {target : String}
    (member : Members.get? m.members "$ref" = some ref)
    (isLocal : Pointer.localTarget? ref = some target)
    (leads : Pointer.resolve root target = .ok (some schema)) :
    .ok ⟨target, schema, m.place⟩ ∈ byReference root m.members m.place := by
  unfold byReference
  rw [member, Option.getD_some, isLocal]
  dsimp only
  rw [leads]
  exact List.mem_singleton_self _

theorem mem_byAllOf {schemas : List Value} {index : Nat} {schema : Value}
    (member : Members.get? m.members "allOf" = some (.arr schemas))
    (item : schemas[index]? = some schema) :
    .ok ⟨Pointer.item (Pointer.child m.pointer "allOf") index, schema, m.place⟩ ∈
      byAllOf m.pointer m.members m.place := by
  have htruthy : (Value.arr schemas).isTruthy = true := by
    cases schemas with
    | nil => cases item
    | cons s rest => rfl
  unfold byAllOf
  rw [present?_eq_some_iff.mpr ⟨member, htruthy⟩]
  exact List.mem_map.mpr ⟨(index, schema), mem_range_zip.mpr item, rfl⟩

theorem mem_byBranches {keyword : String} {branches : List Value} {index : Nat} {branch : Value}
    (member : Members.get? m.members keyword = some (.arr branches))
    (item : branches[index]? = some branch)
    (chosen : valid branch m.place.node.toValue = true ∨
      ∀ b ∈ branches, valid b m.place.node.toValue = false) :
    .ok ⟨Pointer.item (Pointer.child m.pointer keyword) index, branch, m.place⟩ ∈
      byBranches valid keyword m.pointer m.members m.place := by
  unfold byBranches
  rw [member]
  have hall := mem_range_zip (p := (index, branch)).mpr item
  refine List.mem_map.mpr ⟨(index, branch), ?_, rfl⟩
  split
  · exact hall
  · rename_i hsome
    refine List.mem_filter.mpr ⟨hall, ?_⟩
    rcases chosen with hvalid | hnone
    · exact hvalid
    · refine absurd (List.isEmpty_iff.mpr (List.filter_eq_nil_iff.mpr ?_)) hsome
      intro p hp
      simp [hnone p.2 (List.mem_of_getElem? (mem_range_zip.mp hp))]

theorem mem_byCondition {condition schema : Value} {branch : String}
    (member : Members.get? m.members "if" = some condition)
    (chosen : branch = if valid condition m.place.node.toValue then "then" else "else")
    (hbranch : Members.get? m.members branch = some schema) :
    .ok ⟨Pointer.child m.pointer branch, schema, m.place⟩ ∈
      byCondition valid m.pointer m.members m.place := by
  unfold byCondition
  rw [member]
  dsimp only
  rw [← chosen, hbranch]
  exact List.mem_singleton_self _

/-- Where no rule breaks off, both tables of a property can be read. -/
theorem tables_of_byProperty {p value : Place} (hvalue : p.value? = some value)
    (whole : ∀ e, .error e ∉ byProperty test m.pointer m.members p) :
    ∃ declared patterns, declaredFor m.members (p.node.name?.getD "") = .ok declared ∧
      patternsFor test m.members (p.node.name?.getD "") = .ok patterns := by
  unfold byProperty at whole
  rw [hvalue] at whole
  dsimp only at whole
  cases hdeclared : declaredFor m.members (p.node.name?.getD "") with
  | error e => exact absurd (by simp [hdeclared]) (whole e)
  | ok declared =>
      cases hpatterns : patternsFor test m.members (p.node.name?.getD "") with
      | error e => exact absurd (by simp [hdeclared, hpatterns]) (whole e)
      | ok patterns => exact ⟨declared, patterns, rfl, rfl⟩

section Property
variable {p value : Place} (hvalue : p.value? = some value)
  (whole : ∀ e, .error e ∉ byProperty test m.pointer m.members p)
include hvalue whole

theorem mem_byProperty_of_declares {schema : Value}
    (hschema : Declares m.members (p.node.name?.getD "") schema) :
    .ok ⟨Pointer.child (Pointer.child m.pointer "properties") (p.node.name?.getD ""), schema,
      value⟩ ∈ byProperty test m.pointer m.members p := by
  obtain ⟨declared, patterns, hdeclared, hpatterns⟩ := tables_of_byProperty hvalue whole
  obtain rfl := (declaredFor_eq_ok hdeclared schema).mpr hschema
  unfold byProperty
  simp [hvalue, hdeclared, hpatterns]

theorem mem_byProperty_of_fits {pattern : String} {schema : Value}
    (hfits : Fits test m.members (p.node.name?.getD "") pattern schema) :
    .ok ⟨Pointer.child (Pointer.child m.pointer "patternProperties") pattern, schema, value⟩ ∈
      byProperty test m.pointer m.members p := by
  obtain ⟨declared, patterns, hdeclared, hpatterns⟩ := tables_of_byProperty hvalue whole
  have hmem := (patternsFor_eq_ok hpatterns pattern schema).mpr hfits
  have hsome : patterns.isEmpty = false := by
    cases patterns with
    | nil => cases hmem
    | cons q rest => rfl
  unfold byProperty
  simp only [hvalue, hdeclared, hpatterns, hsome, Bool.not_false, Bool.or_true, if_true,
    List.mem_append]
  exact .inr (List.mem_map.mpr ⟨(pattern, schema), hmem, rfl⟩)

theorem mem_byProperty_of_additional {schema : Members}
    (undeclared : ∀ s, ¬ Declares m.members (p.node.name?.getD "") s)
    (unfitting : ∀ pattern s, ¬ Fits test m.members (p.node.name?.getD "") pattern s)
    (member : Members.get? m.members "additionalProperties" = some (.obj schema)) :
    .ok ⟨Pointer.child m.pointer "additionalProperties", .obj schema, value⟩ ∈
      byProperty test m.pointer m.members p := by
  obtain ⟨declared, patterns, hdeclared, hpatterns⟩ := tables_of_byProperty hvalue whole
  have hnone : declared = none := by
    cases declared with
    | none => rfl
    | some s => exact absurd ((declaredFor_eq_ok hdeclared s).mp rfl) (undeclared s)
  have hnil : patterns = [] := by
    cases patterns with
    | nil => rfl
    | cons q rest =>
        have hmem : (q.1, q.2) ∈ q :: rest := List.mem_cons_self
        exact absurd ((patternsFor_eq_ok hpatterns q.1 q.2).mp hmem) (unfitting q.1 q.2)
  subst hnone hnil
  unfold byProperty
  simp [hvalue, hdeclared, hpatterns, member]

end Property

theorem mem_byParts_of_property {name : String} {value : Place} {x : Except MatchError Handing}
    (part : IsProperty m.place name value)
    (hmem : ∀ p ∈ m.place.children, p.node.name?.getD "" = name → p.value? = some value →
      x ∈ byProperty test m.pointer m.members p) :
    x ∈ byParts test m.pointer m.members m.place := by
  obtain ⟨⟨span, properties, hnode⟩, p, hp, hname, hvalue⟩ := part
  unfold byParts
  rw [hnode]
  exact List.mem_flatMap.mpr ⟨p, hp, hmem p hp hname hvalue⟩

theorem mem_byParts_of_item {index : Nat} {item : Place} {x : Except MatchError Handing}
    (part : IsItem m.place index item) (hmem : x ∈ byItem m.pointer m.members index item) :
    x ∈ byParts test m.pointer m.members m.place := by
  obtain ⟨⟨span, items, hnode⟩, hitem⟩ := part
  unfold byParts
  rw [hnode]
  exact List.mem_flatMap.mpr ⟨(index, item), mem_range_zip.mpr hitem, hmem⟩

theorem byProperty_whole (whole : ∀ e, .error e ∉ byParts test m.pointer m.members m.place)
    (hobject : ∃ span properties, m.place.node = .object span properties) {p : Place}
    (hp : p ∈ m.place.children) (e : MatchError) :
    .error e ∉ byProperty test m.pointer m.members p := by
  obtain ⟨span, properties, hnode⟩ := hobject
  intro hmem
  apply whole e
  unfold byParts
  rw [hnode]
  exact List.mem_flatMap.mpr ⟨p, hp, hmem⟩

/-- Where no rule breaks off, all that the rules hand on is handed on. -/
theorem mem_of_handsOn {h : Handing}
    (whole : ∀ e, .error e ∉ handedOn root valid test m.pointer m.members m.place)
    (hrule : HandsOn root valid test m h) :
    .ok h ∈ handedOn root valid test m.pointer m.members m.place := by
  have wholeParts (e : MatchError) : .error e ∉ byParts test m.pointer m.members m.place :=
    fun he => whole e (List.mem_append_right _ he)
  simp only [handedOn, List.mem_append]
  cases hrule with
  | reference member isLocal leads =>
      exact .inl (.inl (.inl (.inl (.inl (mem_byReference member isLocal leads)))))
  | allOf member item => exact .inl (.inl (.inl (.inl (.inr (mem_byAllOf member item)))))
  | validBranch isBranching member item isValid =>
      have := mem_byBranches member item (.inl isValid)
      rcases isBranching with rfl | rfl
      · exact .inl (.inl (.inl (.inr this)))
      · exact .inl (.inl (.inr this))
  | anyBranch isBranching member item noneValid =>
      have := mem_byBranches member item (.inr noneValid)
      rcases isBranching with rfl | rfl
      · exact .inl (.inl (.inl (.inr this)))
      · exact .inl (.inl (.inr this))
  | consequent member isValid branch =>
      exact .inl (.inr (mem_byCondition member (by rw [isValid]; rfl) branch))
  | alternative member isInvalid branch =>
      exact .inl (.inr (mem_byCondition member (by rw [isInvalid]; rfl) branch))
  | property part declared =>
      refine .inr (mem_byParts_of_property part fun p hp hname hvalue => ?_)
      subst hname
      exact mem_byProperty_of_declares hvalue (byProperty_whole wholeParts part.1 hp) declared
  | patternProperty part fits =>
      refine .inr (mem_byParts_of_property part fun p hp hname hvalue => ?_)
      subst hname
      exact mem_byProperty_of_fits hvalue (byProperty_whole wholeParts part.1 hp) fits
  | additionalProperty part undeclared unfitting member =>
      refine .inr (mem_byParts_of_property part fun p hp hname hvalue => ?_)
      subst hname
      exact mem_byProperty_of_additional hvalue (byProperty_whole wholeParts part.1 hp) undeclared
        unfitting member
  | items part member =>
      refine .inr (mem_byParts_of_item part ?_)
      simp [byItem, member]
  | itemAt part member own =>
      refine .inr (mem_byParts_of_item part ?_)
      simp [byItem, member, own]
  | additionalItem part member beyond additional =>
      refine .inr (mem_byParts_of_item part ?_)
      simp [byItem, member, List.getElem?_eq_none beyond, additional]

end Complete
end ModAtlas.Schema.Matching
