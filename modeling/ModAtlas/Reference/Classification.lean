import ModAtlas.Reference.Analysis

/-!
# Classification

Which strings of a document are references, and of which category. A string belongs to the
property above it; the subschemas that govern the object of that property are asked in order, and
the first that has a tag for the property decides.
-/

namespace ModAtlas.Reference
open ModAtlas.Document ModAtlas.Schema

namespace Analysis

/-- The category of the values of a property, asked of the subschemas that govern its object. -/
def categoryOf (tags : TagTable) (name : String) (object value : Place) :
    List Match → Option Category
  | [] => none
  | m :: rest =>
    if m.place.same object && m.place.span.covers value.span then
      match tags.get? m.pointer name with
      | some category => some category
      | none => categoryOf tags name object value rest
    else categoryOf tags name object value rest

/-- The category of a value, if it is a reference. -/
def classify (a : Analysis) (p : Place) : Option Category :=
  match a.schema, p.owner? with
  | some prepared, some property =>
    match property.parent? with
    | some object =>
      categoryOf prepared.tags (property.node.name?.getD "") object p a.found
    | none => none
  | _, _ => none

/-- The strings in the values of properties with given names, name by name. -/
def stringsUnder (a : Analysis) (names : List String) : List Place :=
  names.flatMap fun name =>
    (a.place.findProperties name).flatMap fun property =>
      (property.value?.map Place.strings).getD []

/-- Places that are not at one of the addresses seen before, each once. -/
def unseen : List (List Nat) → List Place → List Place
  | _, [] => []
  | seen, p :: rest =>
    if p.address ∈ seen then unseen seen rest else p :: unseen (p.address :: seen) rest

/-- All references: the strings of tagged properties that have a category, the names of the
properties in sorted order. -/
def references (a : Analysis) : List (Place × Category) :=
  match a.schema with
  | none => []
  | some prepared =>
    (unseen [] (a.stringsUnder (TagTable.properties prepared.tags))).filterMap fun s =>
      (a.classify s).map (s, ·)

/-- The string at an offset that stands as a value. -/
def stringAt (a : Analysis) (offset : Int) : Option (Place × String) :=
  match a.place.at? offset false with
  | none => none
  | some p => if p.isValue then p.node.text?.map (p, ·) else none

end Analysis
end ModAtlas.Reference
