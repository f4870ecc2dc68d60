import ModAtlas.Proofs.Document.Bare

/-!
# Makers follow readers

A document is read as by readers without links, and then the links are put in: the nodes are
numbered in the order of the text, and those below a node have its number for their parent. That
is the linked tree which is made.
-/

namespace ModAtlas.Document

mutual

/-- How many nodes a tree has. -/
def Node.count : Node → Nat
  | .scalar .. => 1
  | .array _ items => 1 + Node.countAll items
  | .object _ properties => 1 + Node.countAll properties
  | .property _ key _ value => 1 + (key.count + value.count)

/-- How many nodes trees have together. -/
def Node.countAll : List Node → Nat
  | [] => 0
  | n :: rest => n.count + Node.countAll rest

end

mutual

/-- A tree whose nodes are numbered from a number on, for the node above it. -/
def Node.linked (parent : Option Nat) (first : Nat) : Node → Linked
  | .scalar span value => .scalar ⟨first, parent⟩ span value
  | .array span items =>
    .array ⟨first, parent⟩ span (Node.linkedAll (some first) (first + 1) items)
  | .object span properties =>
    .object ⟨first, parent⟩ span (Node.linkedAll (some first) (first + 1) properties)
  | .property span key colon value =>
    .property ⟨first, parent⟩ span (key.linked (some first) (first + 1)) colon
      (value.linked (some first) (first + 1 + key.count))

/-- Trees whose nodes are numbered from a number on, for the node above them. -/
def Node.linkedAll (parent : Option Nat) (first : Nat) : List Node → List Linked
  | [] => []
  | n :: rest => n.linked parent first :: Node.linkedAll parent (first + n.count) rest

end

mutual

/-- Links that are put in a tree leave the tree as it is. -/
@[simp] theorem Node.bare_linked (parent : Option Nat) (first : Nat) :
    ∀ n : Node, (n.linked parent first).bare = n
  | .scalar _ _ => rfl
  | .array span items => by
      rw [Node.linked, Linked.bare, Node.bareAll_linkedAll _ _ items]
  | .object span properties => by
      rw [Node.linked, Linked.bare, Node.bareAll_linkedAll _ _ properties]
  | .property span key colon value => by
      rw [Node.linked, Linked.bare, key.bare_linked, value.bare_linked]

theorem Node.bareAll_linkedAll (parent : Option Nat) (first : Nat) :
    ∀ ns : List Node, Linked.bareAll (Node.linkedAll parent first ns) = ns
  | [] => rfl
  | n :: rest => by
      rw [Node.linkedAll, Linked.bareAll, n.bare_linked, Node.bareAll_linkedAll _ _ rest]

end

@[simp] theorem Node.span_linked (parent : Option Nat) (first : Nat) (n : Node) :
    (n.linked parent first).span = n.span := by
  cases n <;> rfl

/-! ## Makers follow readers -/

section Follows
variable {α β : Type}

/-- A maker reads what a reader reads and puts the links in: the nodes are numbered from the number
of nodes made so far, and it counts them. -/
def Maker.Follows (link : Nat → α → β) (count : α → Nat) (maker : Maker β) (reader : Reader α) :
    Prop :=
  ∀ s, maker s = (fun p => (link s.made p.1, ⟨s.made + count p.1, p.2⟩)) <$> reader s.cursor

/-- A maker makes the node that a reader reads, for the node above it. -/
def Maker.Makes (maker : Maker Linked) (reader : Reader Node) (parent : Option Nat) : Prop :=
  maker.Follows (Node.linked parent) Node.count reader

/-- A maker makes the nodes that a reader reads, for the node above them. -/
def Maker.MakesAll (maker : Maker (List Linked)) (reader : Reader (List Node))
    (parent : Option Nat) : Prop :=
  maker.Follows (Node.linkedAll parent) Node.countAll reader

end Follows

namespace Maker

theorem leaf_makes (token : Reader Leaf) (parent : Option Nat) :
    Makes (leaf token parent) (Document.leaf token) parent := by
  intro s
  rw [leaf, Document.leaf]
  cases token s.cursor <;> rfl

theorem item_makes {value : Option Nat → Maker Linked} {reader : Reader Node}
    (h : ∀ parent, (value parent).Makes reader parent) (parent : Nat) :
    Makes (item value parent) (Document.item reader) (some parent) := by
  intro s
  simp only [item, Document.item, map_bind]
  congr 1; funext c
  exact h (some parent) ⟨s.made, c⟩

theorem property_makes {value : Option Nat → Maker Linked} {reader : Reader Node}
    (h : ∀ parent, (value parent).Makes reader parent) (parent : Nat) :
    Makes (property value parent) (Document.property reader) (some parent) := by
  intro s
  simp only [property, Document.property, Document.string, map_bind]
  congr 1; funext c
  congr 1; funext behind
  rw [leaf_makes, bind_map_left]
  congr 1; funext p
  congr 1; funext colon
  congr 1; funext after
  congr 1; funext c
  rw [h, bind_map_left]
  congr 1; funext q
  simp only [Except.map_ok, Node.linked, Node.count, Node.span_linked, Nat.add_assoc]

section Containers
variable {close : Char} {missing unfinished : Fault}

theorem series_makesAll {part : Maker Linked} {reader : Reader Node} {parent : Option Nat}
    (h : part.Makes reader parent) (fuel : Nat) :
    MakesAll (series part close missing unfinished fuel)
      (Document.series reader close missing unfinished fuel) parent := by
  induction fuel with
  | zero => exact fun s => rfl
  | succ fuel ih =>
      intro s
      rw [series, series_succ, h, bind_map_left, map_bind]
      congr 1; funext p
      dsimp only
      rw [map_bind]
      congr 1; funext c
      split
      · rw [ih, bind_map_left, map_bind]
        congr 1; funext q
        simp only [Except.map_ok, Node.linkedAll, Node.countAll, Nat.add_assoc]
      · split
        · simp only [Except.map_ok, Node.linkedAll, Node.countAll, Nat.add_zero]
        · rfl

/-- A container is made as it is read if its parts are. -/
theorem container_makes {part : Nat → Maker Linked} {reader : Reader Node}
    {make : Span → List Node → Node} {makeLinked : Link → Span → List Linked → Linked}
    (h : ∀ parent, (part parent).Makes reader (some parent))
    (hmake : ∀ parent first span ns, (make span ns).linked parent first =
      makeLinked ⟨first, parent⟩ span (Node.linkedAll (some first) (first + 1) ns))
    (hcount : ∀ span ns, (make span ns).count = 1 + Node.countAll ns) (parent : Option Nat) :
    Makes (container part close missing unfinished makeLinked parent)
      (Document.container reader close missing unfinished make) parent := by
  intro s
  rw [container, Document.container, map_bind]
  congr 1; funext c
  split
  · rw [Except.map_ok, hmake, hcount]
    rfl
  · rw [series_makesAll (h s.made), bind_map_left, map_bind]
    congr 1; funext p
    simp only [Except.map_ok, hmake, hcount, Nat.add_assoc]

end Containers

section Values
variable {value : Option Nat → Maker Linked} {reader : Reader Node}
  (h : ∀ parent, (value parent).Makes reader parent) (parent : Option Nat)
include h

theorem array_makes : Makes (array value parent) (Document.array reader) parent :=
  container_makes (item_makes h) (fun _ _ _ _ => rfl) (fun _ _ => rfl) parent

theorem object_makes : Makes (object value parent) (Document.object reader) parent :=
  container_makes (property_makes h) (fun _ _ _ _ => rfl) (fun _ _ => rfl) parent

end Values

/-- A value is made as it is read if the values inside it are. -/
theorem value_makes_of {budget : Nat}
    (inside : ∀ b, budget = b + 1 → ∀ parent,
      Makes (value b parent) (Document.value b) parent) (parent : Option Nat) :
    Makes (value budget parent) (Document.value budget) parent := by
  intro s
  rw [value.eq_def, Document.value.eq_def]
  dsimp only
  split
  · cases budget with
    | zero => rfl
    | succ b => exact array_makes (inside b rfl) parent _
  · cases budget with
    | zero => rfl
    | succ b => exact object_makes (inside b rfl) parent _
  · exact leaf_makes _ parent _
  · rename_i hbracket hbrace hquote
    obtain ⟨made, offset, text⟩ := s
    dsimp only
    split
    · exact absurd rfl (hbracket _ _ _)
    · exact absurd rfl (hbrace _ _ _)
    · exact absurd rfl (hquote _ _ _)
    · exact leaf_makes _ parent _

theorem value_makes (budget : Nat) (parent : Option Nat) :
    Makes (value budget parent) (Document.value budget) parent := by
  induction budget generalizing parent with
  | zero => exact value_makes_of (fun b h => absurd h b.succ_ne_zero.symm) parent
  | succ budget ih => exact value_makes_of (fun b h => Nat.succ.inj h ▸ ih) parent

end Maker

/-- The linked tree of a text is its tree with the links put in. -/
theorem parse_eq (text : List Char) : parse text = (do
    let c ← Cursor.skip ⟨0, text⟩
    let (node, c) ← value nestingLimit c
    let c ← c.skip
    if c.rest.isEmpty then .ok (node.linked none 0) else stop .endExpected c.offset) := by
  rw [parse]
  congr 1; funext c
  rw [Maker.value_makes, bind_map_left]

theorem read_eq (text : List Char) : read text = (do
    let c ← Cursor.skip ⟨0, text⟩
    let (node, c) ← value nestingLimit c
    let c ← c.skip
    if c.rest.isEmpty then .ok node else stop .endExpected c.offset) := by
  change Linked.bare <$> parse text = _
  rw [parse_eq]
  simp only [map_bind]
  congr 1; funext c
  congr 1; funext p
  congr 1; funext c
  split
  · rw [Except.map_ok, Node.bare_linked]
  · rfl

end ModAtlas.Document
