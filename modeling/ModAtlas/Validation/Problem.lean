import ModAtlas.Validation.Evaluation
import ModAtlas.Schema.Prepared

/-!
# Problems of a document

The violations of a document under its schema, each at the node it is about, ordered by where
the nodes start. Members that the schema does not allow are reported at their keys, one problem
each. A schema that cannot be evaluated to the end reports nothing.
-/

namespace ModAtlas.Validation
open ModAtlas.Json ModAtlas.Document

/-- Something wrong with a node: what is said, and the keyword that says it. -/
structure Problem where
  place : Place
  message : String
  keyword : String
deriving Repr, Inhabited

/-- The properties of an object node whose names the schema does not mention. -/
def unmentioned? (allowed : Value) : List Place → Option (List Place)
  | [] => some []
  | p :: rest =>
    match Check.mentions? allowed (p.node.name?.getD "") with
    | none => none
    | some mentioned =>
      (unmentioned? allowed rest).map fun more => if mentioned then more else p :: more

/-- Does the schema have patterns for keys? -/
def hasPatterns (schema : Value) : Bool :=
  ((schema.get? "patternProperties").map Value.isTruthy).getD false

/-- The properties of an object at a place. -/
def propertiesAt (p : Place) : List Place :=
  match p.node with
  | .object .. => p.children
  | _ => []

/-- The problems that a violation stands for. -/
def problemsOf (root : Place) (v : Violation) : Option (List Problem) :=
  let place := root.follow v.path
  let keyword := v.keyword.getD "None"
  let whole : List Problem := [⟨place, v.message, keyword⟩]
  if keyword = "additionalProperties" then
    (unmentioned? ((v.schema.get? "properties").getD (.obj [])) (propertiesAt place)).map
      fun extra =>
        if extra.isEmpty || hasPatterns v.schema then whole
        else extra.map fun p =>
          ⟨p.key?.getD p, "Property " ++ p.node.name?.getD "" ++ " is not allowed.", keyword⟩
  else some whole

/-- The problems of violations, unless one of them cannot be told. -/
def problemsOfAll (root : Place) : List Violation → Option (List Problem)
  | [] => some []
  | v :: rest =>
    (problemsOf root v).bind fun ps => (problemsOfAll root rest).map (ps ++ ·)

/-- Problems by the start of their nodes; problems of one start stay in order. -/
def inTextOrder (problems : List Problem) : List Problem :=
  problems.mergeSort fun p q => p.place.span.start ≤ q.place.span.start

/-- The problems of a document, as a given validator reports violations. -/
def problemsWith (validator : Validator) (root : Node) : List Problem :=
  let outcome := validator.violations root.toValue
  if outcome.broken then []
  else inTextOrder ((problemsOfAll (.root root) outcome.violations).getD [])

/-- The problems of a document under a schema. -/
def problems (schema : Value) (root : Node) : List Problem :=
  problemsWith (.standard schema) root

end ModAtlas.Validation
