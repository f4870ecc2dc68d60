import ModAtlas.Schema.Subschema
import ModAtlas.Validation.Evaluation
import ModAtlas.Document.Place

/-!
# Matching

Which subschemas govern which values of a document. A schema governs the whole document, and a
subschema that governs a value hands parts of it on to other subschemas: to the target of its
`$ref`, to `allOf`, to the valid branches of `anyOf` and `oneOf` (to all when none is valid), to
`then` or `else`, and to the schemas of members and items. `handedOn` states these rules;
`matching` follows them depth first and reports every pair of a pointer and a place once.

## Implementation notes

A rule may break off where a schema has a shape that it cannot use; what is handed on before the
break is still followed first, which decides which of several breaks is seen. The fuel counts the
pairs of a pointer and a place that can occur. A running program has a stack of its own limit, which
is left out: chains of references of any length are followed.

Which branches are valid and which names a pattern matches is not settled here: `matchingWith`
takes both tests as parameters, and what is proved of it holds for any of them. `matching` is the
instance that runs, with the evaluation of `Validation` and the patterns of `Pattern`, which
know less of schemas and of patterns than other tests may.
-/

namespace ModAtlas.Schema
open ModAtlas.Json ModAtlas.Document

/-- Why a document cannot be matched: a keyword of the wrong shape, a pattern table that is no
object, a pointer that cannot be followed. -/
inductive MatchError where
  | wrongShape
  | patternsNotObject
  | pointer (e : Pointer.Error)
  | outOfFuel
deriving DecidableEq, Repr

/-- A schema handed to a place, with the pointer to it. -/
structure Handing where
  pointer : String
  schema : Value
  place : Place
deriving Repr, Inhabited

/-- A subschema that governs a place. -/
structure Match where
  pointer : String
  members : Members
  place : Place
deriving Repr, Inhabited

/-- Is the match for this pointer and this place? -/
def Match.isFor (m : Match) (pointer : String) (place : Place) : Bool :=
  m.pointer == pointer && m.place.same place

/-- What the rules of one subschema hand on, up to a break if there is one. -/
abbrev Handings := List (Except MatchError Handing)

namespace Matching

/-- Decides whether a value is valid under a subschema. -/
abbrev Validity := Value → Value → Bool

/-- Decides whether the pattern that a text writes matches somewhere in a name. A text that is no
pattern matches nothing. -/
abbrev PatternTest := String → String → Bool

/-- A member's value unless it is missing, null, false, zero or empty. -/
def present? (members : Members) (key : String) : Option Value :=
  (Members.get? members key).filter Value.isTruthy

/-- The target of a local reference governs the same place. -/
def byReference (root : Value) (members : Members) (place : Place) : Handings :=
  match Pointer.localTarget? ((Members.get? members "$ref").getD .null) with
  | none => []
  | some target =>
    match Pointer.resolve root target with
    | .error e => [.error (.pointer e)]
    | .ok none => []
    | .ok (some schema) => [.ok ⟨target, schema, place⟩]

/-- Schemas in an array, each at its index below a pointer. -/
def atIndices (pointer : String) (place : Place) (schemas : List Value) : Handings :=
  ((List.range schemas.length).zip schemas).map fun p =>
    .ok ⟨Pointer.item pointer p.1, p.2, place⟩

/-- All schemas of `allOf` govern the same place. -/
def byAllOf (pointer : String) (members : Members) (place : Place) : Handings :=
  match present? members "allOf" with
  | none => []
  | some (.arr schemas) => atIndices (Pointer.child pointer "allOf") place schemas
  | some (.num _) => [.error .wrongShape]
  | some (.bool _) => [.error .wrongShape]
  | some _ => []

/-- The valid branches govern the same place, or all of them when none is valid. -/
def byBranches (valid : Validity) (keyword pointer : String) (members : Members) (place : Place) :
    Handings :=
  match Members.get? members keyword with
  | some (.arr branches) =>
    let value := place.node.toValue
    let all := (List.range branches.length).zip branches
    let chosen := all.filter fun p => valid p.2 value
    (if chosen.isEmpty then all else chosen).map fun p =>
      .ok ⟨Pointer.item (Pointer.child pointer keyword) p.1, p.2, place⟩
  | _ => []

/-- Schema `then` governs a place that is valid under `if`, schema `else` any other. -/
def byCondition (valid : Validity) (pointer : String) (members : Members) (place : Place) :
    Handings :=
  match Members.get? members "if" with
  | none => []
  | some condition =>
    let branch := if valid condition place.node.toValue then "then" else "else"
    match Members.get? members branch with
    | none => []
    | some schema => [.ok ⟨Pointer.child pointer branch, schema, place⟩]

/-- What `properties` says of a name: nothing, a schema, or a break. -/
def declaredFor (members : Members) (name : String) : Except MatchError (Option Value) :=
  match present? members "properties" with
  | none => .ok none
  | some (.obj schemas) => .ok (Members.get? schemas name)
  | some v =>
    match Validation.Check.mentions? v name with
    | some false => .ok none
    | _ => .error .wrongShape

/-- What `patternProperties` says of a name: the patterns that match it. -/
def patternsFor (test : PatternTest) (members : Members) (name : String) :
    Except MatchError Members :=
  match present? members "patternProperties" with
  | none => .ok []
  | some (.obj schemas) => .ok (schemas.filter fun p => test p.1 name)
  | some _ => .error .patternsNotObject

/-- The schemas of one property: the declared one, those of matching patterns, and if there is
neither, that of additional properties. -/
def byProperty (test : PatternTest) (pointer : String) (members : Members) (property : Place) :
    Handings :=
  match property.value? with
  | none => []
  | some value =>
    let name := property.node.name?.getD ""
    match declaredFor members name with
    | .error e => [.error e]
    | .ok declared =>
      let own : Handings := declared.toList.map fun schema =>
        .ok ⟨Pointer.child (Pointer.child pointer "properties") name, schema, value⟩
      match patternsFor test members name with
      | .error e => own ++ [.error e]
      | .ok patterns =>
        let matched : Handings := patterns.map fun p =>
          .ok ⟨Pointer.child (Pointer.child pointer "patternProperties") p.1, p.2, value⟩
        if declared.isSome || !patterns.isEmpty then own ++ matched
        else
          match Members.get? members "additionalProperties" with
          | some (.obj schema) =>
            [.ok ⟨Pointer.child pointer "additionalProperties", .obj schema, value⟩]
          | _ => []

/-- The schema of one item: that of all items, its own, or that of additional items. -/
def byItem (pointer : String) (members : Members) (index : Nat) (item : Place) : Handings :=
  match Members.get? members "items" with
  | some (.obj schema) => [.ok ⟨Pointer.child pointer "items", .obj schema, item⟩]
  | some (.arr schemas) =>
    match schemas[index]? with
    | some schema => [.ok ⟨Pointer.item (Pointer.child pointer "items") index, schema, item⟩]
    | none =>
      match Members.get? members "additionalItems" with
      | some (.obj schema) =>
        [.ok ⟨Pointer.child pointer "additionalItems", .obj schema, item⟩]
      | _ => []
  | _ => []

/-- The schemas of the parts of a place. -/
def byParts (test : PatternTest) (pointer : String) (members : Members) (place : Place) :
    Handings :=
  match place.node with
  | .object .. => place.children.flatMap (byProperty test pointer members)
  | .array .. =>
    let items := place.children
    ((List.range items.length).zip items).flatMap fun p => byItem pointer members p.1 p.2
  | _ => []

/-- All that a subschema hands on, in order. -/
def handedOn (root : Value) (valid : Validity) (test : PatternTest) (pointer : String)
    (members : Members) (place : Place) : Handings :=
  byReference root members place ++ byAllOf pointer members place ++
    byBranches valid "anyOf" pointer members place ++
    byBranches valid "oneOf" pointer members place ++
    byCondition valid pointer members place ++ byParts test pointer members place

/-- Follows the rules from one handing, adding to the matches found so far, latest first. Only
objects govern, and no pair of a pointer and a place is followed twice. -/
def follow (root : Value) (valid : Validity) (test : PatternTest) :
    Nat → Handing → List Match → Except MatchError (List Match)
  | 0, _, _ => .error .outOfFuel
  | fuel + 1, h, found =>
    match h.schema with
    | .obj members =>
      if found.any (·.isFor h.pointer h.place) then .ok found
      else
        (handedOn root valid test h.pointer members h.place).foldlM
          (fun found next => do follow root valid test fuel (← next) found)
          (⟨h.pointer, members, h.place⟩ :: found)
    | _ => .ok found

/-- As many steps as there are pairs: pointers start at the schema or at the target of one of its
references, and lead to one of the values below. -/
def fuel (root : Value) (document : Node) : Nat :=
  (root.count + 1) * (root.count + 1) * (Place.root document).walk.length + 1

end Matching

/-- The subschemas that govern a document, in the order in which they are found, branches and
patterns being decided by given tests. -/
def matchingWith (valid : Matching.Validity) (test : Matching.PatternTest) (schema : Value)
    (document : Node) : Except MatchError (List Match) :=
  (Matching.follow schema valid test (Matching.fuel schema document)
    ⟨"", schema, .root document⟩ []).map List.reverse

/-- The subschemas that govern a document, in the order in which they are found. -/
def matching (schema : Value) (document : Node) : Except MatchError (List Match) :=
  matchingWith (Validation.Validator.standard schema).isValid Pattern.test schema document

end ModAtlas.Schema
