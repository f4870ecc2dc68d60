import ModAtlas.Document.Linked
import ModAtlas.Document.Token

/-!
# Reading a document

A document is JSON with comments. `parse` makes the linked tree of a text or gives the first fault
of it: what was missing and at which offset. `read` gives the tree without links. At most
`nestingLimit` containers may lie inside one another.

## Implementation notes

A maker reads on with the number of nodes made so far, which is the number of the next one. A
container and a property take their number before what lies below them is made, and pass it down.

A value is read with a budget of containers that may still be opened, on which the recursion is
structural. Arrays and objects are read by one loop over their parts, whose arguments are the maker
of one part, the closing bracket and the faults. It has as much fuel as the text has characters:
every turn takes at least one.
-/

namespace ModAtlas.Document

/-- The most containers that may lie inside one another. -/
def nestingLimit : Nat := 64

/-- How many nodes have been made, and the cursor behind what was read. -/
structure Progress where
  made : Nat
  cursor : Cursor
deriving DecidableEq, Repr

/-- What a maker gives: a result and the progress behind it, or a failure. -/
abbrev Maker (α : Type) := Progress → Except Failure (α × Progress)

namespace Maker

/-- The node of a token, for the node with a number. -/
def leaf (token : Reader Leaf) (parent : Option Nat) : Maker Linked := fun s => do
  let (l, c) ← token s.cursor
  .ok (.scalar ⟨s.made, parent⟩ l.span l.value, ⟨s.made + 1, c⟩)

/-- One item of the array with a number. -/
def item (value : Option Nat → Maker Linked) (parent : Nat) : Maker Linked := fun s => do
  value (some parent) ⟨s.made, ← s.cursor.skip⟩

/-- One property of the object with a number: a key, a colon and a value. -/
def property (value : Option Nat → Maker Linked) (parent : Nat) : Maker Linked := fun s => do
  let self := s.made
  let c ← s.cursor.skip
  let start := c.offset
  let (key, s) ← leaf Leaf.string (some self) ⟨self + 1, ← c.expect '"' .nameExpected⟩
  let c ← s.cursor.skip
  let colon := c.offset
  let c ← (← c.expect ':' .colonExpected).skip
  let (v, s) ← value (some self) ⟨s.made, c⟩
  .ok (.property ⟨self, some parent⟩ ⟨start, v.span.stop - start⟩ key colon v, s)

/-- Items or properties up to the closing bracket. -/
def series (part : Maker Linked) (close : Char) (missing unfinished : Fault) :
    Nat → Maker (List Linked)
  | 0, s => stop missing s.cursor.offset
  | fuel + 1, s => do
    let (first, s) ← part s
    let c ← s.cursor.skip
    let behind : Progress := ⟨s.made, ⟨c.offset + 1, c.rest.tail⟩⟩
    if c.rest.head? = some ',' then
      let (more, s) ← series part close missing unfinished fuel behind
      .ok (first :: more, s)
    else if c.rest.head? = some close then .ok ([first], behind)
    else stop unfinished c.offset

/-- An array or an object, for a cursor behind its opening bracket. -/
def container (part : Nat → Maker Linked) (close : Char) (missing unfinished : Fault)
    (make : Link → Span → List Linked → Linked) (parent : Option Nat) : Maker Linked := fun s => do
  let self := s.made
  let start := s.cursor.offset - 1
  let c ← s.cursor.skip
  if c.rest.head? = some close then
    .ok (make ⟨self, parent⟩ ⟨start, c.offset + 1 - start⟩ [],
      ⟨self + 1, ⟨c.offset + 1, c.rest.tail⟩⟩)
  else
    let (found, s) ←
      series (part self) close missing unfinished (c.rest.length + 1) ⟨self + 1, c⟩
    .ok (make ⟨self, parent⟩ ⟨start, s.cursor.offset - start⟩ found, s)

/-- An array, for a cursor behind its opening bracket. -/
def array (value : Option Nat → Maker Linked) : Option Nat → Maker Linked :=
  container (item value) ']' .valueExpected .commaOrBracketExpected .array

/-- An object, for a cursor behind its opening brace. -/
def object (value : Option Nat → Maker Linked) : Option Nat → Maker Linked :=
  container (property value) '}' .nameExpected .commaOrBraceExpected .object

/-- One value at the cursor, for the node with a number; `budget` is how many more containers may
be opened. -/
def value : Nat → Option Nat → Maker Linked
  | budget, parent, s =>
    match s with
    | ⟨made, ⟨offset, '[' :: rest⟩⟩ =>
      match budget with
      | 0 => stop .nestingTooDeep offset
      | budget + 1 => array (value budget) parent ⟨made, ⟨offset + 1, rest⟩⟩
    | ⟨made, ⟨offset, '{' :: rest⟩⟩ =>
      match budget with
      | 0 => stop .nestingTooDeep offset
      | budget + 1 => object (value budget) parent ⟨made, ⟨offset + 1, rest⟩⟩
    | ⟨made, ⟨offset, '"' :: rest⟩⟩ => leaf Leaf.string parent ⟨made, ⟨offset + 1, rest⟩⟩
    | s => leaf Leaf.plain parent s

end Maker

/-- The linked tree of a document text. -/
def parse (text : List Char) : Except Failure Linked := do
  let c ← Cursor.skip ⟨0, text⟩
  let (tree, s) ← Maker.value nestingLimit none ⟨0, c⟩
  let c ← s.cursor.skip
  if c.rest.isEmpty then .ok tree else stop .endExpected c.offset

/-- The tree of a document text. -/
def read (text : List Char) : Except Failure Node := (parse text).map Linked.bare

end ModAtlas.Document
