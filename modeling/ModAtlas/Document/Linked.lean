import ModAtlas.Document.Node

/-!
# Document trees with links

The tree of a document as it is made: nodes are numbered in the order in which they are made, and
each one is given the number of the node that it is made for. `Linked.bare` leaves these out.
-/

namespace ModAtlas.Document

/-- The number of a node, and that of the node above it. -/
structure Link where
  self : Nat
  parent : Option Nat
deriving DecidableEq, Repr, Inhabited

/-- A node of a document tree with its link. -/
inductive Linked where
  | scalar (link : Link) (span : Span) (value : Scalar)
  | array (link : Link) (span : Span) (items : List Linked)
  | object (link : Link) (span : Span) (properties : List Linked)
  | property (link : Link) (span : Span) (key : Linked) (colon : Nat) (value : Linked)
deriving Repr, Inhabited

namespace Linked

/-- The link of a node. -/
def link : Linked → Link
  | .scalar l _ _ => l
  | .array l _ _ => l
  | .object l _ _ => l
  | .property l _ _ _ _ => l

/-- The number of a node. -/
def number (t : Linked) : Nat := t.link.self

/-- The number of the node that a node was made for. -/
def parent? (t : Linked) : Option Nat := t.link.parent

/-- The range of a node. -/
def span : Linked → Span
  | .scalar _ s _ => s
  | .array _ s _ => s
  | .object _ s _ => s
  | .property _ s _ _ _ => s

/-- The nodes directly below a node. -/
def children : Linked → List Linked
  | .scalar .. => []
  | .array _ _ items => items
  | .object _ _ properties => properties
  | .property _ _ key _ value => [key, value]

mutual

/-- A tree without its links. -/
def bare : Linked → Node
  | .scalar _ span value => .scalar span value
  | .array _ span items => .array span (bareAll items)
  | .object _ span properties => .object span (bareAll properties)
  | .property _ span key colon value => .property span key.bare colon value.bare

/-- Trees without their links. -/
def bareAll : List Linked → List Node
  | [] => []
  | n :: rest => n.bare :: bareAll rest

end

end Linked
end ModAtlas.Document
