import ModAtlas.Json.Value

/-!
# Document trees

The tree of a document: every value and every property with the range of characters it was read
from. `Node.children` lists what lies directly below a node, in the order of the text; a property
has its key and its value below it.
-/

namespace ModAtlas.Document

/-- A range of characters: where it starts and how many there are. -/
structure Span where
  start : Nat
  length : Nat
deriving DecidableEq, Repr, Inhabited

namespace Span

/-- The offset after the last character. -/
def stop (s : Span) : Nat := s.start + s.length

/-- Does the range hold an offset? Its end counts when asked for. -/
def holds (s : Span) (withEnd : Bool) (offset : Int) : Bool :=
  (s.start : Int) ≤ offset && (if withEnd then offset ≤ s.stop else offset < s.stop)

/-- Does the range lie around another one? -/
def covers (s t : Span) : Bool := s.start ≤ t.start && t.stop ≤ s.stop

end Span

/-- A value without parts. -/
inductive Scalar where
  | null
  | bool (b : Bool)
  | number (n : Number)
  | string (s : String)
deriving DecidableEq, Repr

/-- A node of a document tree. -/
inductive Node where
  | scalar (span : Span) (value : Scalar)
  | array (span : Span) (items : List Node)
  | object (span : Span) (properties : List Node)
  | property (span : Span) (key : Node) (colon : Nat) (value : Node)
deriving Repr, Inhabited

/-- The kinds of nodes. -/
inductive Kind where
  | object
  | array
  | string
  | number
  | boolean
  | null
  | property
deriving DecidableEq, Repr

/-- The name of a kind. -/
def Kind.name : Kind → String
  | .object => "object"
  | .array => "array"
  | .string => "string"
  | .number => "number"
  | .boolean => "boolean"
  | .null => "null"
  | .property => "property"

namespace Node

/-- The range of a node. -/
def span : Node → Span
  | .scalar s _ => s
  | .array s _ => s
  | .object s _ => s
  | .property s _ _ _ => s

/-- The kind of a node. -/
def kind : Node → Kind
  | .scalar _ .null => .null
  | .scalar _ (.bool _) => .boolean
  | .scalar _ (.number _) => .number
  | .scalar _ (.string _) => .string
  | .array .. => .array
  | .object .. => .object
  | .property .. => .property

/-- The nodes directly below a node. -/
def children : Node → List Node
  | .scalar .. => []
  | .array _ items => items
  | .object _ properties => properties
  | .property _ key _ value => [key, value]

/-- The text of a string node. -/
def text? : Node → Option String
  | .scalar _ (.string s) => some s
  | _ => none

/-- The name that a property's key spells. -/
def name? : Node → Option String
  | .property _ key _ _ => key.text?
  | _ => none

/-- The value of a property. -/
def value? : Node → Option Node
  | .property _ _ _ value => some value
  | _ => none

/-- The first property of an object with a name, and its place among the properties. -/
def findProperty (name : String) : Nat → List Node → Option (Nat × Node)
  | _, [] => none
  | index, p :: rest =>
    if p.name? = some name then some (index, p) else findProperty name (index + 1) rest

end Node

/-- A scalar as a JSON value. -/
def Scalar.toValue : Scalar → Json.Value
  | .null => .null
  | .bool b => .bool b
  | .number n => .num n
  | .string s => .str s

namespace Node

mutual

/-- The JSON value of a node; a property has the value of its value. -/
def toValue : Node → Json.Value
  | .scalar _ value => value.toValue
  | .array _ items => .arr (toValues items)
  | .object _ properties => .obj (Json.Members.ofList (toMembers properties))
  | .property _ _ _ value => toValue value

/-- The JSON values of items. -/
def toValues : List Node → List Json.Value
  | [] => []
  | x :: xs => toValue x :: toValues xs

/-- The key and the JSON value of each property. -/
def toMembers : List Node → List (String × Json.Value)
  | [] => []
  | x :: xs => (x.name?.getD "", toValue x) :: toMembers xs

end

end Node
end ModAtlas.Document
