import ModAtlas.Proofs.Schema.Tagging

/-!
# Which rule decides

Tags are added subschema by subschema and rule by rule, and a tag that is there stays. So the tag
of a property depends on nothing but the pointer of its subschema: it is there when a subschema at
that pointer declares the property, and its category is that of the first rule for the property
whose scope has the pointer in it.
-/

namespace ModAtlas.Schema
open ModAtlas.Json ModAtlas.Document ModAtlas.Reference

/-! ## The deciding rule -/

/-- Does a subschema declare a property? -/
def Subschema.declares (sub : Subschema) (name : String) : Bool :=
  match declared? sub.members with
  | none => false
  | some properties => Members.has properties name

/-- Does the enumeration of a schema come to a subschema at the pointer that declares the
property? -/
def declaresAt (schema : Value) (pointer name : String) : Bool :=
  (subschemas "" schema).any fun sub => sub.pointer == pointer && sub.declares name

/-- Is a rule for the property, and the pointer in its scope? -/
def TagRule.reaches (schema : Value) (pointer name : String) (rule : TagRule) : Bool :=
  rule.name == name &&
    match scopeRoots schema rule.scope with
    | .error _ => false
    | .ok roots => roots.any (Pointer.within pointer)

/-- The category that rules give to a property of the subschema at a pointer: the first rule that
reaches it decides. -/
def ruledCategory? (schema : Value) (rules : List TagRule) (pointer name : String) :
    Option Category :=
  if declaresAt schema pointer name then
    (rules.find? (TagRule.reaches schema pointer name)).map (·.category)
  else none

/-! ## Adding tags -/

section Table
variable {table : TagTable} {pointer name : String}

/-- A tag that is added counts only where there was none. -/
theorem TagTable.get?_add (tag : Tag) : (table.add tag).get? pointer name =
    (table.get? pointer name).or
      (if tag.pointer = pointer ∧ tag.property = name then some tag.category else none) := by
  unfold TagTable.add
  by_cases hfor : tag.pointer = pointer ∧ tag.property = name
  · obtain ⟨rfl, rfl⟩ := hfor
    cases hget : table.get? tag.pointer tag.property with
    | some category => simp [hget]
    | none =>
        have hnone : table.find?
            (fun t => t.pointer == tag.pointer && t.property == tag.property) = none :=
          Option.map_eq_none_iff.mp hget
        simp [TagTable.get?, List.find?_append, hnone]
  · rw [if_neg hfor, Option.or_none]
    split
    · rfl
    · have hother : (tag.pointer == pointer && tag.property == name) = false := by
        simpa using hfor
      simp [TagTable.get?, List.find?_append, hother]

/-- Is a scoped rule for the property, and the pointer below one of its roots? -/
def ScopedRule.reaches (pointer name : String) (r : ScopedRule) : Bool :=
  r.rule.name == name && r.roots.any (Pointer.within pointer)

variable {rules : List ScopedRule}

/-- One rule adds at most the tag of its property. -/
theorem get?_rule {p : String} {properties : Members} (r : ScopedRule) :
    (if r.applies p properties then table.add ⟨p, r.rule.name, r.rule.category⟩
      else table).get? pointer name =
    (table.get? pointer name).or
      (if (p = pointer ∧ Members.has properties name = true) ∧ r.reaches pointer name = true then
        some r.rule.category
      else none) := by
  by_cases hfor : p = pointer ∧ r.rule.name = name
  · obtain ⟨rfl, rfl⟩ := hfor
    have happlies : ((p = p ∧ Members.has properties r.rule.name = true) ∧
        r.reaches p r.rule.name = true) ↔ r.applies p properties = true := by
      simp [ScopedRule.applies, ScopedRule.reaches]
    rw [if_congr happlies rfl rfl]
    split
    · rw [TagTable.get?_add, if_pos ⟨rfl, rfl⟩]
    · rw [Option.or_none]
  · have hother : ¬ ((p = pointer ∧ Members.has properties name = true) ∧
        r.reaches pointer name = true) := by
      rintro ⟨⟨hp, -⟩, hreaches⟩
      exact hfor ⟨hp, eq_of_beq (Bool.and_eq_true_iff.mp hreaches).1⟩
    rw [if_neg hother]
    split
    · simp [TagTable.get?_add, hfor]
    · simp

/-- The tags of one subschema: of several rules the first counts. -/
theorem get?_tagSubschema (sub : Subschema) : (tagSubschema rules table sub).get? pointer name =
    (table.get? pointer name).or
      (if sub.pointer = pointer ∧ sub.declares name = true then
        (rules.find? (ScopedRule.reaches pointer name)).map (·.rule.category)
      else none) := by
  unfold tagSubschema Subschema.declares
  cases declared? sub.members with
  | none => simp
  | some properties =>
      dsimp only
      induction rules generalizing table with
      | nil => simp
      | cons r rules ih =>
          rw [List.foldl_cons, ih, get?_rule, Option.or_assoc, List.find?_cons]
          by_cases hhere : sub.pointer = pointer ∧ Members.has properties name = true
          · cases hreaches : r.reaches pointer name <;> simp [hhere]
          · simp [hhere]

/-- The tags of several subschemas, as far as they stand at one pointer. -/
theorem get?_foldl_tagSubschema (subs : List Subschema) :
    TagTable.get? (subs.foldl (tagSubschema rules) table) pointer name =
      (table.get? pointer name).or
        (if subs.any (fun sub => sub.pointer == pointer && sub.declares name) then
          (rules.find? (ScopedRule.reaches pointer name)).map (·.rule.category)
        else none) := by
  induction subs generalizing table with
  | nil => simp
  | cons sub subs ih =>
      rw [List.foldl_cons, ih, get?_tagSubschema, Option.or_assoc, List.any_cons]
      by_cases hhere : sub.pointer = pointer ∧ sub.declares name = true
      · -- what later subschemas at the pointer say is the same
        rw [if_pos hhere]
        split <;> simp [hhere]
      · simp [hhere]

end Table

/-! ## The tags of a schema -/

/-- With their scopes rules reach the same properties. -/
theorem find?_scopedRules {schema : Value} {rules : List TagRule} {ready : List ScopedRule}
    (h : scopedRules schema rules = .ok ready) (pointer name : String) :
    (ready.find? (ScopedRule.reaches pointer name)).map (·.rule.category) =
      (rules.find? (TagRule.reaches schema pointer name)).map (·.category) := by
  unfold scopedRules at h
  induction rules generalizing ready with
  | nil =>
      cases h
      rfl
  | cons rule rules ih =>
      rw [List.mapM_cons] at h
      obtain ⟨r, hr, h⟩ := bind_eq_ok.mp h
      obtain ⟨rest, hrest, h⟩ := bind_eq_ok.mp h
      cases h
      obtain ⟨roots, hroots, hr⟩ := bind_eq_ok.mp hr
      cases hr
      have hreaches : ScopedRule.reaches pointer name ⟨rule, roots⟩ =
          rule.reaches schema pointer name := by
        simp [ScopedRule.reaches, TagRule.reaches, hroots]
      rw [List.find?_cons, List.find?_cons, hreaches]
      cases rule.reaches schema pointer name with
      | true => rfl
      | false => exact ih hrest

/-- The tag of a property is what the first rule that reaches it says. -/
theorem get?_tagsOf {schema : Value} {rules : List TagRule} {tags : TagTable}
    (h : tagsOf schema rules = .ok tags) (pointer name : String) :
    tags.get? pointer name = ruledCategory? schema rules pointer name := by
  obtain ⟨ready, hready, htags⟩ := bind_eq_ok.mp h
  cases htags
  rw [get?_foldl_tagSubschema, find?_scopedRules hready]
  rfl

end ModAtlas.Schema
