import ModAtlas.Proofs.Schema.Positions
import ModAtlas.Proofs.Schema.Rules
import ModAtlas.Proofs.Validation.Problems
import ModAtlas.Proofs.Validation.Targets

/-!
# What a validator of draft 7 guarantees

A value that is valid under a schema is not refused by the schemas that the keywords of the schema
apply to it and to its parts. `Validator.IsDraft7` says so keyword by keyword, for an arbitrary
validator, as far as it matters for schemas that are handed on. It is all that is known of the
validator: not how it evaluates, nor what it says of the values that it refuses.

## Implementation notes

A subschema with an `$id` of its own is evaluated as a document of its own when it is reached from
outside, and one with a `$schema` may follow another draft. Nothing is said of how these go together
with the schema around them.
-/

namespace ModAtlas.Validation
open ModAtlas.Json ModAtlas.Text ModAtlas.Schema
open ModAtlas.Schema.Matching (PatternTest Declares Fits)

/-! ## Parts of the whole schema -/

/-- A schema without an address and a draft of its own. -/
def IsPlain : Value → Prop
  | .obj members => Members.get? members "$id" = none ∧ Members.get? members "$schema" = none
  | _ => True

/-- A schema that is evaluated with the address and the draft of the whole schema. -/
def Belongs (root schema : Value) : Prop := schema = root ∨ IsPlain schema

/-- Nothing inside the whole schema has an address or a draft of its own. -/
def Undivided (root : Value) : Prop := ∀ p ∈ (positions "" root).tail, IsPlain p.2

instance (schema : Value) : Decidable (IsPlain schema) :=
  match schema with
  | .obj members => inferInstanceAs
      (Decidable (Members.get? members "$id" = none ∧ Members.get? members "$schema" = none))
  | .null | .bool _ | .num _ | .str _ | .arr _ => .isTrue trivial

instance (root : Value) : Decidable (Undivided root) := inferInstanceAs (Decidable (∀ p ∈ _, _))

/-- In an undivided schema everything belongs to the whole. -/
theorem Undivided.belongs {root : Value} (h : Undivided root) {p : String × Value}
    (hp : p ∈ allPositions root) : Belongs root p.2 := by
  obtain ⟨q, hq⟩ := exists_mem_positions_root hp
  rw [positions_eq] at hq
  rcases List.mem_cons.mp hq with heq | hinner
  · exact .inl (Prod.mk.inj heq).2
  · refine .inr (h (q, p.2) ?_)
    rw [positions_eq]
    exact hinner

/-! ## Patterns -/

/-- The patterns of a schema. -/
def patternsOf (members : Members) : List String :=
  match Members.get? members "patternProperties" with
  | some (.obj schemas) => Members.keys schemas
  | _ => []

/-- The patterns of a schema, joined to one with bars between them, match a name only if one of
them does. -/
def JoinsPatterns (test : PatternTest) (members : Members) (name : String) : Prop :=
  patternsOf members ≠ [] → (∀ pattern ∈ patternsOf members, test pattern name = false) →
    test (join "|" (patternsOf members)) name = false

instance (test : PatternTest) (members : Members) (name : String) :
    Decidable (JoinsPatterns test members name) := inferInstanceAs (Decidable (_ → _ → _))

theorem test_eq_false_of_not_fits {test : PatternTest} {members : Members} {name : String}
    (h : ∀ pattern s, ¬ Fits test members name pattern s) :
    ∀ pattern ∈ patternsOf members, test pattern name = false := by
  intro pattern hpattern
  unfold patternsOf at hpattern
  split at hpattern
  · rename_i schemas hget
    obtain ⟨⟨_, s⟩, hmem, rfl⟩ := List.mem_map.mp hpattern
    by_contra hmatches
    exact h _ s ⟨schemas, hget, hmem, Bool.not_eq_false _ ▸ hmatches⟩
  · cases hpattern

/-! ## Keywords -/

namespace Validator
variable (V : Validator) (root : Value)

/-- The value is valid under the schema. -/
def Accepts (schema value : Value) : Prop := V.accepts? schema value = some true

/-- The value is invalid under the schema. -/
def Refuses (schema value : Value) : Prop := V.accepts? schema value = some false

instance (schema value : Value) : Decidable (V.Accepts schema value) :=
  inferInstanceAs (Decidable (_ = _))

/-- A value is valid under a part of the whole schema whose keywords all count, since it has no
reference. -/
structure Counts (members : Members) (value : Value) : Prop where
  belongs : Belongs root (.obj members)
  sole : (Members.get? members "$ref").getD .null = .null
  valid : V.Accepts (.obj members) value

/-- What a validator of draft 7 guarantees of a value that is valid. Patterns are decided by a test,
and `target` gives what a reference leads to from the whole schema, if it stays in its document. -/
structure IsDraft7 (test : PatternTest) (target : String → Option Value) : Prop where
  /-- Where no violation is reported, the whole schema does not refuse. -/
  whole {value : Value} (none : (V.violations value).verdict? = some true) : ¬ V.Refuses root value
  /-- Members that are not allowed are reported only if it can be told which are mentioned. -/
  telling (value : Value) : (V.violations value).All Violation.Telling
  /-- A `$ref` is a text, and what it leads to is applied to the value. -/
  reference {members : Members} {value v : Value} (belongs : Belongs root (.obj members))
    (valid : V.Accepts (.obj members) value) (member : Members.get? members "$ref" = some v)
    (present : v ≠ .null) :
    ∃ ref, v = .str ref ∧ ∀ schema, target ref = some schema → Belongs root schema →
      ¬ V.Refuses schema value
  /-- A literal reference into an undivided schema leads to where its pointer does. -/
  literal {ref pointer : String} {schema : Value} (undivided : Undivided root)
    (isLiteral : IsLiteral ref) (isLocal : Pointer.localTarget? (.str ref) = some pointer)
    (leads : Pointer.resolve root pointer = .ok (some schema)) : target ref = some schema
  /-- All schemas of `allOf` are applied. -/
  allOf {members : Members} {value schema : Value} {schemas : List Value}
    (h : V.Counts root members value) (member : Members.get? members "allOf" = some (.arr schemas))
    (item : schema ∈ schemas) (belongs : Belongs root schema) : ¬ V.Refuses schema value
  /-- Of the schemas of `anyOf` and of `oneOf` at least one does not refuse. -/
  branches {members : Members} {value : Value} {keyword : String} {schemas : List Value}
    (h : V.Counts root members value) (isBranching : keyword = "anyOf" ∨ keyword = "oneOf")
    (member : Members.get? members keyword = some (.arr schemas))
    (belongs : ∀ schema ∈ schemas, Belongs root schema) :
    ∃ schema ∈ schemas, ¬ V.Refuses schema value
  /-- After `if`, either `then` or `else` is applied. -/
  conditional {members : Members} {value condition schema : Value} {a : Bool}
    (h : V.Counts root members value) (member : Members.get? members "if" = some condition)
    (decided : V.accepts? condition value = some a)
    (branch : Members.get? members (if a then "then" else "else") = some schema)
    (belongs : Belongs root schema) : ¬ V.Refuses schema value
  /-- A member that is declared under `properties` has its schema applied. -/
  properties {members parts : Members} {name : String} {schema part : Value}
    (h : V.Counts root members (.obj parts)) (there : Members.get? parts name = some part)
    (declared : Declares members name schema) (belongs : Belongs root schema) :
    ¬ V.Refuses schema part
  /-- A member whose name a pattern matches has the schema of the pattern applied. -/
  patternProperties {members parts : Members} {name pattern : String} {schema part : Value}
    (h : V.Counts root members (.obj parts)) (there : Members.get? parts name = some part)
    (fits : Fits test members name pattern schema) (belongs : Belongs root schema) :
    ¬ V.Refuses schema part
  /-- All other members have the schema under `additionalProperties` applied. -/
  additionalProperties {members parts schema : Members} {name : String} {part : Value}
    (h : V.Counts root members (.obj parts)) (there : Members.get? parts name = some part)
    (undeclared : ∀ s, ¬ Declares members name s)
    (unfitting : patternsOf members ≠ [] → test (join "|" (patternsOf members)) name = false)
    (member : Members.get? members "additionalProperties" = some (.obj schema))
    (belongs : Belongs root (.obj schema)) : ¬ V.Refuses (.obj schema) part
  /-- A single schema under `items` is applied to each item. -/
  items {members schema : Members} {values : List Value} {index : Nat} {part : Value}
    (h : V.Counts root members (.arr values)) (there : values[index]? = some part)
    (member : Members.get? members "items" = some (.obj schema))
    (belongs : Belongs root (.obj schema)) : ¬ V.Refuses (.obj schema) part
  /-- Schemas in an array under `items` are applied to the items at their indices. -/
  itemsInTurn {members : Members} {values schemas : List Value} {index : Nat} {schema part : Value}
    (h : V.Counts root members (.arr values)) (there : values[index]? = some part)
    (member : Members.get? members "items" = some (.arr schemas))
    (own : schemas[index]? = some schema) (belongs : Belongs root schema) : ¬ V.Refuses schema part
  /-- Items beyond these have the schema under `additionalItems` applied. -/
  additionalItems {members schema : Members} {values schemas : List Value} {index : Nat}
    {part : Value} (h : V.Counts root members (.arr values)) (there : values[index]? = some part)
    (member : Members.get? members "items" = some (.arr schemas)) (beyond : schemas.length ≤ index)
    (additional : Members.get? members "additionalItems" = some (.obj schema))
    (belongs : Belongs root (.obj schema)) : ¬ V.Refuses (.obj schema) part

end Validator
end ModAtlas.Validation
