import ModAtlas.Schema.Pointer

/-!
# Subschemas

Every object inside a schema, with its pointer, in the order of the text. What lies below `enum`,
`const`, `default` and `examples` is data and is passed over.

## Implementation notes

A schema may nest as deeply as it likes. How deep a running program can descend before its stack is
used up is left out, here and wherever else a schema is followed downwards.
-/

namespace ModAtlas.Schema
open ModAtlas.Json

/-- An object inside a schema and the pointer to it. -/
structure Subschema where
  pointer : String
  members : Members
deriving Repr, Inhabited

/-- Keys whose values are data. -/
def isDataKey (key : String) : Bool :=
  key == "enum" || key == "const" || key == "default" || key == "examples"

mutual

/-- The objects inside a value that stands at a pointer. -/
def subschemas (pointer : String) : Value → List Subschema
  | .obj members => ⟨pointer, members⟩ :: memberSubschemas pointer members
  | .arr items => itemSubschemas pointer 0 items
  | _ => []

/-- The objects inside the members of an object. -/
def memberSubschemas (pointer : String) : Members → List Subschema
  | [] => []
  | (key, v) :: rest =>
    if isDataKey key then memberSubschemas pointer rest
    else subschemas (Pointer.child pointer key) v ++ memberSubschemas pointer rest

/-- The objects inside the items of an array, counted from an index. -/
def itemSubschemas (pointer : String) : Nat → List Value → List Subschema
  | _, [] => []
  | index, v :: rest =>
    subschemas (Pointer.item pointer index) v ++ itemSubschemas pointer (index + 1) rest

end

/-- The named properties that an object declares. -/
def declared? (members : Members) : Option Members :=
  (Members.get? members "properties").bind Value.members?

end ModAtlas.Schema
