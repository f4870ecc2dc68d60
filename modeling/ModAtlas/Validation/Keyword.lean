import ModAtlas.Validation.Outcome
import ModAtlas.Validation.Reference
import ModAtlas.Json.Literal
import ModAtlas.Pattern.Reading

/-!
# Schema keywords

What each keyword of a schema asks of a value (JSON Schema, draft 7). `Check` is one schema being
held against one value; each keyword is a function on it that gives an outcome. Subschemas are
evaluated by a function that the check carries, so no keyword recurs by itself.
-/

namespace ModAtlas.Validation
open ModAtlas.Json ModAtlas.Text ModAtlas.Document

/-- One schema being held against one value. `evaluate` holds any schema against any value and
may be asked for the first violation only. -/
structure Check where
  evaluate : Bool → Value → Value → Outcome
  root : Value
  firstOnly : Bool
  schema : Members
  value : Value

namespace Check

/-- A violation of a keyword at the value itself. -/
def violates (c : Check) (keyword message : String) : Outcome :=
  .violated ⟨some keyword, message, [], .obj c.schema, c.value⟩

/-- A violation if a condition holds. -/
def violatesIf (c : Check) (condition : Bool) (keyword message : String) : Outcome :=
  if condition then c.violates keyword message else .fine

/-- The value as shown in messages. -/
def shown (c : Check) : String := c.value.literal

/-- Holds a subschema against the value itself. -/
def descend (c : Check) (schema : Value) : Outcome := c.evaluate c.firstOnly schema c.value

/-- Holds a subschema against a part of the value. What the schema `false` refuses is reported at
the value itself and not at the part. -/
def descendTo (c : Check) (step : PathStep) (schema part : Value) : Outcome :=
  let outcome := c.evaluate c.firstOnly schema part
  match schema with
  | .bool false => outcome
  | _ => outcome.under step

/-- Is a value valid under a schema, if that can be told? -/
def accepts? (c : Check) (schema value : Value) : Option Bool :=
  (c.evaluate true schema value).verdict?

/-- An evaluation for each of several things in turn. -/
def each {α : Type} (c : Check) (xs : List α) (f : α → Outcome) : Outcome :=
  .each c.firstOnly f xs

/-! ## Shapes -/

/-- What can be gone through: items, keys or characters. -/
def elements? : Value → Option (List Value)
  | .arr items => some items
  | .obj members => some ((Members.keys members).map .str)
  | .str s => some (s.toList.map fun c => .str (String.ofList [c]))
  | _ => none

/-- Is a key among the keys, the items or the text of a value? -/
def mentions? (v : Value) (key : String) : Option Bool :=
  match v with
  | .obj members => some (Members.has members key)
  | .arr items => some (items.any fun x => x.text? == some key)
  | .str s => some (!(occurrences key.toList 0 s.toList).isEmpty)
  | _ => none

/-- Does a value have the type with a name? Unknown names have no answer. -/
def hasType? (v : Value) (name : String) : Option Bool :=
  match name with
  | "null" => some (match v with | .null => true | _ => false)
  | "boolean" => some (match v with | .bool _ => true | _ => false)
  | "string" => some (match v with | .str _ => true | _ => false)
  | "array" => some (match v with | .arr _ => true | _ => false)
  | "object" => some (match v with | .obj _ => true | _ => false)
  | "number" => some (match v with | .num _ => true | _ => false)
  | "integer" => some (match v with | .num n => n.isWhole | _ => false)
  | _ => none

/-! ## Any value -/

/-- Is the value of one of the types? An unknown type before the first fitting one breaks off. -/
def fitsAny? (v : Value) : List Value → Option Bool
  | [] => some false
  | .str name :: rest =>
    match hasType? v name with
    | none => none
    | some true => some true
    | some false => fitsAny? v rest
  | _ => none

/-- Keyword `type`: the value has one of the types. -/
def type (c : Check) (v : Value) : Outcome :=
  let names := match v with
    | .str s => some [.str s]
    | v => elements? v
  match names with
  | none => .broke
  | some names =>
    match fitsAny? c.value names with
    | none => .broke
    | some fits =>
      c.violatesIf (!fits) "type"
        (c.shown ++ " is not of type " ++ join ", " (Value.literals names))

/-- Keyword `enum`: the value is one of those listed. -/
def enum (c : Check) (v : Value) : Outcome :=
  match elements? v with
  | none => .broke
  | some values =>
    c.violatesIf (!values.any (Value.same · c.value)) "enum"
      (c.shown ++ " is not one of " ++ v.literal)

/-- Keyword `const`: the value is the one given. -/
def const (c : Check) (v : Value) : Outcome :=
  c.violatesIf (!Value.same c.value v) "const" (v.literal ++ " was expected")

/-! ## Numbers -/

/-- A bound on a number: what must not hold between the number and the bound. -/
def bound (c : Check) (v : Value) (breaks : Number → Number → Bool) (keyword words : String) :
    Outcome :=
  match c.value with
  | .num n =>
    match v.quantity? with
    | none => .broke
    | some m => c.violatesIf (breaks n m) keyword (c.shown ++ words ++ v.literal)
  | _ => .fine

/-- Less than or of the same value. -/
def atMost (a b : Number) : Bool := a.lt b || a.same b

/-- Keyword `minimum`: the number is not less. -/
def minimum (c : Check) (v : Value) : Outcome :=
  c.bound v Number.lt "minimum" " is less than the minimum of "

/-- Keyword `maximum`: the number is not greater. -/
def maximum (c : Check) (v : Value) : Outcome :=
  c.bound v (fun n m => m.lt n) "maximum" " is greater than the maximum of "

/-- Keyword `exclusiveMinimum`: the number is greater. -/
def exclusiveMinimum (c : Check) (v : Value) : Outcome :=
  c.bound v atMost "exclusiveMinimum" " is less than or equal to the minimum of "

/-- Keyword `exclusiveMaximum`: the number is less. -/
def exclusiveMaximum (c : Check) (v : Value) : Outcome :=
  c.bound v (fun n m => atMost m n) "exclusiveMaximum"
    " is greater than or equal to the maximum of "

/-- A number as floating point, if it is not too great for that. -/
def asReal? : Number → Option Binary64
  | .real x => some x
  | .int n =>
    let x := Binary64.ofInt n
    if x.isFinite then some x else none

/-- Is the exact quotient of two numbers whole? -/
def dividesExactly? (n : Number) (step : Binary64) : Option Bool :=
  match n.ratio?, step.ratio? with
  | some (a, b), some (p, q) => some ((a * q) % (b * p) == 0)
  | _, _ => none

/-- Does a number fail to be a multiple of a floating point step? The rounded quotient decides;
one too great to be rounded gives way to the exact one. -/
def failsRealStep? (n : Number) (step : Binary64) : Option Bool :=
  if step.isZero then none
  else
    (asReal? n).bind fun x =>
      match x.divide step with
      | .nan => none
      | .infinite _ => (dividesExactly? n step).map (!·)
      | quotient => some (!quotient.isWhole)

/-- Does a number fail to be a multiple of a whole step? Infinity always does. -/
def failsWholeStep? (n : Number) (step : Int) : Option Bool :=
  if step = 0 then none
  else
    match n with
    | .int m => some (m % step != 0)
    | .real x =>
      (asReal? (.int step)).bind fun y =>
        match x.ratio?, y.ratio? with
        | some (a, b), some (p, q) => some ((a * q) % (b * p) != 0)
        | _, _ => some true

/-- Keyword `multipleOf`: the number is a whole multiple. -/
def multipleOf (c : Check) (v : Value) : Outcome :=
  match c.value with
  | .num n =>
    let fails := match v.quantity? with
      | some (.real step) => failsRealStep? n step
      | some (.int step) => failsWholeStep? n step
      | none => none
    match fails with
    | none => .broke
    | some fails =>
      c.violatesIf fails "multipleOf" (c.shown ++ " is not a multiple of " ++ v.literal)
  | _ => .fine

/-! ## Sizes -/

/-- The least size of something; a least size of one has words of its own. -/
def leastSize (c : Check) (v : Value) (size? : Option Nat) (keyword words : String) : Outcome :=
  match size? with
  | none => .fine
  | some size =>
    match v.quantity? with
    | none => .broke
    | some m =>
      c.violatesIf ((Number.int size).lt m) keyword
        (c.shown ++ if m.same (.int 1) then " should be non-empty" else words)

/-- The greatest size of something; a greatest size of zero has words of its own. -/
def greatestSize (c : Check) (v : Value) (size? : Option Nat) (keyword words : String) : Outcome :=
  match size? with
  | none => .fine
  | some size =>
    match v.quantity? with
    | none => .broke
    | some m =>
      c.violatesIf (m.lt (.int size)) keyword
        (c.shown ++ if m.isZero then " is expected to be empty" else words)

/-- The number of characters of a string. -/
def textSize? (c : Check) : Option Nat := c.value.text?.map String.length

/-- The number of items of an array. -/
def itemCount? (c : Check) : Option Nat := c.value.items?.map List.length

/-- The number of members of an object. -/
def memberCount? (c : Check) : Option Nat := c.value.members?.map List.length

/-! ## Strings -/

/-- Keyword `pattern`: the pattern matches somewhere in the string. -/
def pattern (c : Check) (v : Value) : Outcome :=
  match c.value with
  | .str s =>
    match v.text?.bind Pattern.read? with
    | none => .broke
    | some p =>
      c.violatesIf (!p.search s.toList) "pattern" (c.shown ++ " does not match " ++ v.literal)
  | _ => .fine

/-! ## Arrays -/

/-- Items with their indices. -/
def indexed (items : List Value) : List (Nat × Value) := (List.range items.length).zip items

/-- Keyword `items`: one schema for all items, or a schema for each of the first items. -/
def items (c : Check) (v : Value) : Outcome :=
  match c.value with
  | .arr values =>
    match v with
    | .arr schemas =>
      c.each ((indexed values).zip schemas) fun p =>
        c.descendTo (.index p.1.1) p.2 p.1.2
    | schema =>
      c.each (indexed values) fun p => c.descendTo (.index p.1) schema p.2
  | _ => .fine

/-- Things that should not be there, and the verb for as many of them. -/
def unexpected (shown : List String) : String :=
  "(" ++ join ", " shown ++ (if shown.length = 1 then " was" else " were") ++ " unexpected)"

/-- Keyword `additionalItems`: the items behind those that `items` lists one by one. One schema for
all items leaves none behind; an `items` that is neither breaks off. -/
def additionalItems (c : Check) (v : Value) : Outcome :=
  match c.value, (Members.get? c.schema "items").getD (.obj []) with
  | .arr _, .obj _ => .fine
  | .arr values, listed =>
    match elements? listed with
    | none => .broke
    | some schemas =>
      let extra := (indexed values).drop schemas.length
      match v with
      | .obj _ => c.each extra fun p => c.descendTo (.index p.1) v p.2
      | _ =>
        c.violatesIf (!v.isTruthy && !extra.isEmpty) "additionalItems"
          ("Additional items are not allowed " ++ unexpected (extra.map (·.2.literal)))
  | _, _ => .fine

/-- Is any of several values valid under a schema, if that can be told? -/
def acceptsAny? (c : Check) (schema : Value) : List Value → Option Bool
  | [] => some false
  | x :: xs =>
    match c.accepts? schema x with
    | some false => acceptsAny? c schema xs
    | answer => answer

/-- Keyword `contains`: some item is valid. -/
def contains (c : Check) (v : Value) : Outcome :=
  match c.value with
  | .arr values =>
    match c.acceptsAny? v values with
    | none => .broke
    | some found =>
      c.violatesIf (!found) "contains"
        ("None of " ++ c.shown ++ " are valid under the given schema")
  | _ => .fine

/-- Are no two of the values equal? -/
def areDistinct : List Value → Bool
  | [] => true
  | x :: xs => !xs.any (Value.same x) && areDistinct xs

/-- Keyword `uniqueItems`: no two items are equal. -/
def uniqueItems (c : Check) (v : Value) : Outcome :=
  match c.value with
  | .arr values =>
    c.violatesIf (v.isTruthy && !areDistinct values) "uniqueItems"
      (c.shown ++ " has non-unique elements")
  | _ => .fine

/-! ## Objects -/

/-- One name that must be a key of the object. -/
def requireKey (c : Check) (members : Members) (keyword : String) (words : String) :
    Value → Outcome
  | .str key => c.violatesIf (!Members.has members key) keyword (quoted key ++ words)
  | .arr _ => .broke
  | .obj _ => .broke
  | other => c.violates keyword (other.literal ++ words)

/-- Keyword `required`: the object has all the keys. -/
def required (c : Check) (v : Value) : Outcome :=
  match c.value with
  | .obj members =>
    match elements? v with
    | none => .broke
    | some keys => c.each keys (c.requireKey members "required" " is a required property")
  | _ => .fine

/-- Keyword `properties`: the members with these keys are valid. -/
def properties (c : Check) (v : Value) : Outcome :=
  match c.value with
  | .obj members =>
    match v with
    | .obj schemas =>
      c.each schemas fun p =>
        match Members.get? members p.1 with
        | none => .fine
        | some x => c.descendTo (.key p.1) p.2 x
    | _ => .broke
  | _ => .fine

/-- Keyword `patternProperties`: the members whose keys match a pattern are valid. -/
def patternProperties (c : Check) (v : Value) : Outcome :=
  match c.value with
  | .obj members =>
    match v with
    | .obj schemas =>
      c.each schemas fun p =>
        c.each members fun m =>
          match Pattern.read? p.1 with
          | none => .broke
          | some pattern =>
            if pattern.search m.1.toList then
              c.descendTo (.key m.1) p.2 m.2
            else .fine
    | _ => .broke
  | _ => .fine

/-- The patterns of `patternProperties` as alternatives of one pattern text. -/
def joinedPatterns? (schema : Members) : Option String :=
  match Members.get? schema "patternProperties" with
  | none => some ""
  | some v => (elements? v).bind fun es => (es.mapM Value.text?).map (join "|")

/-- The keys that neither `properties` nor `patternProperties` mention. -/
def extraKeys? (schema : Members) (joined : String) : List String → Option (List String)
  | [] => some []
  | key :: rest =>
    match mentions? ((Members.get? schema "properties").getD (.obj [])) key with
    | none => none
    | some true => extraKeys? schema joined rest
    | some false =>
      if joined.isEmpty then (extraKeys? schema joined rest).map (key :: ·)
      else
        match Pattern.read? joined with
        | none => none
        | some p =>
          if p.search key.toList then extraKeys? schema joined rest
          else (extraKeys? schema joined rest).map (key :: ·)

/-- What is said of members that no keyword mentions. -/
def extraMessage (schema : Members) (extra : List String) : String :=
  let shown := (sorted extra).map quoted
  match Members.get? schema "patternProperties" with
  | none => "Additional properties are not allowed " ++ unexpected shown
  | some v =>
    let patterns := sorted (((elements? v).getD []).filterMap Value.text?)
    join ", " shown ++ (if extra.length = 1 then " does" else " do") ++
      " not match any of the regexes: " ++ join ", " (patterns.map quoted)

/-- Keyword `additionalProperties`: the members that no other keyword mentions. -/
def additionalProperties (c : Check) (v : Value) : Outcome :=
  match c.value with
  | .obj members =>
    match (joinedPatterns? c.schema).bind fun joined =>
        extraKeys? c.schema joined (Members.keys members) with
    | none => .broke
    | some extra =>
      match v with
      | .obj _ =>
        c.each extra fun key =>
          match Members.get? members key with
          | none => .fine
          | some x => c.descendTo (.key key) v x
      | _ =>
        c.violatesIf (!v.isTruthy && !extra.isEmpty) "additionalProperties"
          (extraMessage c.schema extra)
  | _ => .fine

/-- Keyword `propertyNames`: the keys are valid, as strings. -/
def propertyNames (c : Check) (v : Value) : Outcome :=
  match c.value with
  | .obj members =>
    c.each (Members.keys members) fun key => c.evaluate c.firstOnly v (.str key)
  | _ => .fine

/-- Keyword `dependencies`: what an object with a key must fulfil: further keys, or a schema. -/
def dependencies (c : Check) (v : Value) : Outcome :=
  match c.value with
  | .obj members =>
    match v with
    | .obj rules =>
      c.each rules fun p =>
        if Members.has members p.1 then
          match p.2 with
          | .arr keys =>
            c.each keys
              (c.requireKey members "dependencies" (" is a dependency of " ++ quoted p.1))
          | schema => c.descend schema
        else .fine
    | _ => .broke
  | _ => .fine

/-! ## Combinations -/

/-- Keyword `allOf`: the value is valid under each schema. -/
def allOf (c : Check) (v : Value) : Outcome :=
  match elements? v with
  | none => .broke
  | some schemas => c.each schemas c.descend

/-- What trying schemas one after the other leads to. -/
inductive Trial where
  | broke
  | nothing
  | found (schema : Value) (untried : List Value)

/-- The first of several schemas under which the value has no violation. -/
def firstValid (c : Check) : List Value → Trial
  | [] => .nothing
  | schema :: rest =>
    let o := c.evaluate false schema c.value
    if o.broken then .broke
    else if o.violations.isEmpty then .found schema rest
    else firstValid c rest

/-- What is said of a value that is valid under none of several schemas. -/
def noneValid (c : Check) : String := c.shown ++ " is not valid under any of the given schemas"

/-- Keyword `anyOf`: the value is valid under some schema. -/
def anyOf (c : Check) (v : Value) : Outcome :=
  match elements? v with
  | none => .broke
  | some schemas =>
    match c.firstValid schemas with
    | .broke => .broke
    | .nothing => c.violates "anyOf" c.noneValid
    | .found .. => .fine

/-- The schemas under which the value is valid. -/
def allValid? (c : Check) : List Value → Option (List Value)
  | [] => some []
  | schema :: rest =>
    match c.accepts? schema c.value with
    | none => none
    | some valid => (allValid? c rest).map fun more => if valid then schema :: more else more

/-- Keyword `oneOf`: the value is valid under exactly one schema. -/
def oneOf (c : Check) (v : Value) : Outcome :=
  match elements? v with
  | none => .broke
  | some schemas =>
    match c.firstValid schemas with
    | .broke => .broke
    | .nothing => c.violates "oneOf" c.noneValid
    | .found schema untried =>
      match c.allValid? untried with
      | none => .broke
      | some more =>
        c.violatesIf (!more.isEmpty) "oneOf"
          (c.shown ++ " is valid under each of " ++ join ", " (Value.literals (more ++ [schema])))

/-- Keyword `not`: the value is not valid under the schema. -/
def negation (c : Check) (v : Value) : Outcome :=
  match c.accepts? v c.value with
  | none => .broke
  | some valid =>
    c.violatesIf valid "not" (c.shown ++ " should not be valid under " ++ v.literal)

/-- Keyword `if`: a valid value is also valid under `then`, any other under `else`. -/
def conditional (c : Check) (v : Value) : Outcome :=
  match c.accepts? v c.value with
  | none => .broke
  | some valid =>
    match Members.get? c.schema (if valid then "then" else "else") with
    | none => .fine
    | some schema => c.descend schema

/-- Keyword `$ref`: the value is valid under the schema referred to. -/
def reference (c : Check) (v : Value) : Outcome :=
  match v.text?.bind (target? c.root) with
  | none => .broke
  | some schema => c.descend schema

/-! ## All keywords -/

/-- What a keyword with a value asks; unknown keywords ask nothing. -/
def keyword (c : Check) (name : String) (v : Value) : Outcome :=
  match name with
  | "$ref" => c.reference v
  | "additionalItems" => c.additionalItems v
  | "additionalProperties" => c.additionalProperties v
  | "allOf" => c.allOf v
  | "anyOf" => c.anyOf v
  | "const" => c.const v
  | "contains" => c.contains v
  | "dependencies" => c.dependencies v
  | "enum" => c.enum v
  | "exclusiveMaximum" => c.exclusiveMaximum v
  | "exclusiveMinimum" => c.exclusiveMinimum v
  | "if" => c.conditional v
  | "items" => c.items v
  | "maxItems" => c.greatestSize v c.itemCount? "maxItems" " is too long"
  | "maxLength" => c.greatestSize v c.textSize? "maxLength" " is too long"
  | "maxProperties" =>
    c.greatestSize v c.memberCount? "maxProperties" " has too many properties"
  | "maximum" => c.maximum v
  | "minItems" => c.leastSize v c.itemCount? "minItems" " is too short"
  | "minLength" => c.leastSize v c.textSize? "minLength" " is too short"
  | "minProperties" =>
    c.leastSize v c.memberCount? "minProperties" " does not have enough properties"
  | "minimum" => c.minimum v
  | "multipleOf" => c.multipleOf v
  | "not" => c.negation v
  | "oneOf" => c.oneOf v
  | "pattern" => c.pattern v
  | "patternProperties" => c.patternProperties v
  | "properties" => c.properties v
  | "propertyNames" => c.propertyNames v
  | "required" => c.required v
  | "type" => c.type v
  | "uniqueItems" => c.uniqueItems v
  | _ => .fine

end Check
end ModAtlas.Validation
