import ModAtlas.Validation.Keyword

/-!
# Evaluation of schemas

`evaluate` holds a schema against a value: `true` and `false` accept and refuse everything, an
object asks what its keywords ask, in their order. A `$ref` stands alone: what is written beside
it asks nothing. Anything else is no schema and breaks the evaluation off.

## Implementation notes

A chain of subschemas that takes no step down into the value and is longer than the schema has
parts comes to the same part again and never ends. `fuel` therefore allows that many subschemas
for each level of the value, and an evaluation that uses it up breaks off.

`Validator.standard` is the validator that runs. It knows the keywords of draft 7 and references
into the whole schema. It does not look at `$schema`, which may name another draft, nor at `$id`,
which starts a document of its own inside the schema, and follows no reference to an anchor or to
another document. What is proved of matching and of problems takes any validator instead, together
with what it says of the keywords concerned.
-/

namespace ModAtlas.Validation
open ModAtlas.Json

/-- Holds a schema against a value, within the whole schema that references lead into. -/
def evaluate (root : Value) : Nat → Bool → Value → Value → Outcome
  | 0, _, _, _ => .broke
  | fuel + 1, firstOnly, schema, value =>
    match schema with
    | .bool true => .fine
    | .bool false =>
      .violated ⟨none, "False schema does not allow " ++ value.literal, [], schema, value⟩
    | .obj members =>
      let check : Check := ⟨evaluate root fuel, root, firstOnly, members, value⟩
      match (Members.get? members "$ref").getD .null with
      | .null => check.each members fun m => check.keyword m.1 m.2
      | ref => check.keyword "$ref" ref
    | _ => .broke

/-- Enough subschemas for every evaluation that ends. -/
def fuel (root schema value : Value) : Nat :=
  (root.count + schema.count + 1) * (value.depth + 2)

/-- All violations of a value under a whole schema. -/
def violations (root value : Value) : Outcome :=
  evaluate root (fuel root root value) false root value

/-- Is a value valid under a subschema, if that can be told? -/
def accepts? (root schema value : Value) : Option Bool :=
  (evaluate root (fuel root schema value) true schema value).verdict?

/-- The validator that runs. -/
def Validator.standard (root : Value) : Validator where
  violations := Validation.violations root
  accepts? := Validation.accepts? root

end ModAtlas.Validation
