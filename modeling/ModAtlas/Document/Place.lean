import ModAtlas.Document.Node

/-!
# Places in a document tree

A place is a node together with the way down to it: for each node above, innermost first, that
node and the index of the child taken. Two places of one tree are the same exactly when their
ways have the same indices. `Place.walk` lists a place and all places below it, in the order of
the text, and `Place.at?` finds the innermost place that holds an offset.
-/

namespace ModAtlas.Document

/-- One step down: the node above and the index of the child taken. -/
structure Step where
  above : Node
  index : Nat
deriving Repr, Inhabited

/-- A node and the way down to it, the innermost step first. -/
structure Place where
  node : Node
  way : List Step
deriving Repr, Inhabited

/-- The places of nodes that lie side by side below a node, counted from an index. -/
def placesBelow (above : Node) (way : List Step) : Nat → List Node → List Place
  | _, [] => []
  | index, n :: rest => ⟨n, ⟨above, index⟩ :: way⟩ :: placesBelow above way (index + 1) rest

mutual

/-- A node and all nodes below it, depth first, each as a place. -/
def walkNode (way : List Step) : Node → List Place
  | .scalar span value => [⟨.scalar span value, way⟩]
  | .array span items =>
    ⟨.array span items, way⟩ :: walkNodes (.array span items) way 0 items
  | .object span properties =>
    ⟨.object span properties, way⟩ :: walkNodes (.object span properties) way 0 properties
  | .property span key colon value =>
    let above := Node.property span key colon value
    ⟨above, way⟩ :: (walkNode (⟨above, 0⟩ :: way) key ++ walkNode (⟨above, 1⟩ :: way) value)

/-- Nodes that lie side by side below a node, each with all nodes below it. -/
def walkNodes (above : Node) (way : List Step) : Nat → List Node → List Place
  | _, [] => []
  | index, n :: rest =>
    walkNode (⟨above, index⟩ :: way) n ++ walkNodes above way (index + 1) rest

end

mutual

/-- The innermost node that holds an offset, as a place. -/
def nodeAt (withEnd : Bool) (offset : Int) (way : List Step) : Node → Option Place
  | .scalar span value =>
    if span.holds withEnd offset then some ⟨.scalar span value, way⟩ else none
  | .array span items =>
    let here := Node.array span items
    if span.holds withEnd offset then
      some ((nodeAtAny withEnd offset here way 0 items).getD ⟨here, way⟩)
    else none
  | .object span properties =>
    let here := Node.object span properties
    if span.holds withEnd offset then
      some ((nodeAtAny withEnd offset here way 0 properties).getD ⟨here, way⟩)
    else none
  | .property span key colon value =>
    let here := Node.property span key colon value
    if span.holds withEnd offset then
      some (((nodeAt withEnd offset (⟨here, 0⟩ :: way) key).or
        (nodeAt withEnd offset (⟨here, 1⟩ :: way) value)).getD ⟨here, way⟩)
    else none

/-- The innermost node that holds an offset, below the first of several that does. -/
def nodeAtAny (withEnd : Bool) (offset : Int) (above : Node) (way : List Step) :
    Nat → List Node → Option Place
  | _, [] => none
  | index, n :: rest =>
    (nodeAt withEnd offset (⟨above, index⟩ :: way) n).or
      (nodeAtAny withEnd offset above way (index + 1) rest)

end

namespace Place

/-- The place of a whole tree. -/
def root (node : Node) : Place := ⟨node, []⟩

/-- The indices of the way down, innermost first: what tells places of one tree apart. -/
def address (p : Place) : List Nat := p.way.map (·.index)

/-- Are both the same place of their tree? -/
def same (p q : Place) : Bool := p.address == q.address

/-- The range of the node. -/
def span (p : Place) : Span := p.node.span

/-- The place directly above. -/
def parent? (p : Place) : Option Place :=
  match p.way with
  | [] => none
  | s :: rest => some ⟨s.above, rest⟩

/-- The places directly below. -/
def children (p : Place) : List Place := placesBelow p.node p.way 0 p.node.children

/-- The place itself and all places below it, depth first. -/
def walk (p : Place) : List Place := walkNode p.way p.node

/-- The innermost place that holds an offset; ranges hold their ends when asked for. -/
def at? (p : Place) (offset : Int) (withEnd : Bool) : Option Place :=
  nodeAt withEnd offset p.way p.node

/-- The place of a property's key. -/
def key? (p : Place) : Option Place :=
  match p.node with
  | .property _ key _ _ => some ⟨key, ⟨p.node, 0⟩ :: p.way⟩
  | _ => none

/-- The place of a property's value. -/
def value? (p : Place) : Option Place :=
  match p.node with
  | .property _ _ _ value => some ⟨value, ⟨p.node, 1⟩ :: p.way⟩
  | _ => none

/-- Is it the key of a property? -/
def isKey (p : Place) : Bool :=
  match p.way with
  | ⟨.property .., index⟩ :: _ => index == 0
  | _ => false

/-- Is it the whole document, an item of an array or the value of a property? -/
def isValue (p : Place) : Bool :=
  match p.way with
  | [] => true
  | ⟨.property .., index⟩ :: _ => index == 1
  | ⟨.array .., _⟩ :: _ => true
  | _ => false

/-- The nearest property above, unless an object comes first. -/
def propertyAbove : List Step → Option Place
  | [] => none
  | s :: rest =>
    match s.above with
    | .property .. => some ⟨s.above, rest⟩
    | .object .. => none
    | _ => propertyAbove rest

/-- The property whose value the place belongs to, arrays being looked through. A key belongs to
none. -/
def owner? (p : Place) : Option Place := if p.isKey then none else propertyAbove p.way

/-- The properties with a name at or below a place. -/
def findProperties (p : Place) (name : String) : List Place :=
  p.walk.filter fun q => q.node.name? == some name

mutual

/-- The strings of a value, arrays being looked through. -/
def stringsIn (way : List Step) : Node → List Place
  | .scalar span (.string s) => [⟨.scalar span (.string s), way⟩]
  | .array span items => stringsInAll (.array span items) way 0 items
  | _ => []

/-- The strings of values that lie side by side below a node. -/
def stringsInAll (above : Node) (way : List Step) : Nat → List Node → List Place
  | _, [] => []
  | index, n :: rest =>
    stringsIn (⟨above, index⟩ :: way) n ++ stringsInAll above way (index + 1) rest

end

/-- The strings of the value at a place, arrays being looked through. -/
def strings (p : Place) : List Place := stringsIn p.way p.node

end Place

/-- A step of a path through a JSON value: a key or an index. -/
inductive PathStep where
  | key (name : String)
  | index (i : Int)
deriving DecidableEq, Repr

/-- Follows a path through a document tree as far as it leads. -/
def Place.follow (p : Place) : List PathStep → Place
  | [] => p
  | step :: path =>
    match p.node, step with
    | .object _ properties, .key name =>
      match Node.findProperty name 0 properties with
      | none => p
      | some (index, property) =>
        let q : Place := ⟨property, ⟨p.node, index⟩ :: p.way⟩
        match q.value? with
        | none => q
        | some v => v.follow path
    | .array _ items, .index i =>
      if i < 0 then p
      else
        match items[i.toNat]? with
        | none => p
        | some item => Place.follow ⟨item, ⟨p.node, i.toNat⟩ :: p.way⟩ path
    | _, _ => p

end ModAtlas.Document
