import ModAtlas.Proofs.Document.Reading

/-!
# The links of a document

A linked tree is walked as a tree of places is. In the tree of a document the numbers along the walk
count up from zero, so that no two nodes have the same one, and the parent of a node is the node
that it is a child of. So a place and the node that was made for it have the same node above them.
-/

namespace ModAtlas.Document

/-! ## Walks over linked trees -/

namespace Linked

mutual

/-- A node and all nodes below it, depth first. -/
def walk : Linked → List Linked
  | .scalar link span value => [.scalar link span value]
  | .array link span items => .array link span items :: walkAll items
  | .object link span properties => .object link span properties :: walkAll properties
  | .property link span key colon value =>
    .property link span key colon value :: (key.walk ++ value.walk)

/-- Nodes and all nodes below them, depth first. -/
def walkAll : List Linked → List Linked
  | [] => []
  | n :: rest => n.walk ++ walkAll rest

end

theorem walkAll_eq (ns : List Linked) : walkAll ns = ns.flatMap walk := by
  induction ns with
  | nil => rfl
  | cons n rest ih => rw [walkAll, ih, List.flatMap_cons]

/-- The walk takes a node and then the walks over its children. -/
theorem walk_eq (t : Linked) : t.walk = t :: t.children.flatMap walk := by
  cases t with
  | scalar link span value => rfl
  | array link span items => rw [walk, walkAll_eq, children]
  | object link span properties => rw [walk, walkAll_eq, children]
  | property link span key colon value => simp [walk, children]

end Linked

/-! ## Numbers along a walk -/

namespace Node

@[simp] theorem number_linked (parent : Option Nat) (first : Nat) (n : Node) :
    (n.linked parent first).number = first := by
  cases n <;> rfl

@[simp] theorem parent?_linked (parent : Option Nat) (first : Nat) (n : Node) :
    (n.linked parent first).parent? = parent := by
  cases n <;> rfl

mutual

/-- Nodes are numbered in the order of the walk. -/
theorem numbers_linked (parent : Option Nat) (first : Nat) :
    ∀ n : Node, (n.linked parent first).walk.map Linked.number = List.range' first n.count
  | .scalar _ _ => rfl
  | .array span items => by
      rw [linked, Linked.walk, List.map_cons, numbers_linkedAll _ _ items, count, Nat.add_comm 1,
        List.range'_succ]
      rfl
  | .object span properties => by
      rw [linked, Linked.walk, List.map_cons, numbers_linkedAll _ _ properties, count,
        Nat.add_comm 1, List.range'_succ]
      rfl
  | .property span key colon value => by
      rw [linked, Linked.walk, List.map_cons, List.map_append, key.numbers_linked,
        value.numbers_linked, List.range'_append_1, count, Nat.add_comm 1, List.range'_succ]
      rfl

theorem numbers_linkedAll (parent : Option Nat) (first : Nat) :
    ∀ ns : List Node, (Linked.walkAll (linkedAll parent first ns)).map Linked.number =
      List.range' first (countAll ns)
  | [] => rfl
  | n :: rest => by
      rw [linkedAll, Linked.walkAll, List.map_append, n.numbers_linked,
        numbers_linkedAll _ _ rest, List.range'_append_1, countAll]

end

/-! ## Children and parents -/

theorem exists_of_mem_linkedAll {parent : Option Nat} {ns : List Node} {first : Nat} {c : Linked}
    (h : c ∈ linkedAll parent first ns) : ∃ n ∈ ns, ∃ k, c = n.linked parent k := by
  induction ns generalizing first with
  | nil => cases h
  | cons n rest ih =>
      rcases List.mem_cons.mp h with rfl | h
      · exact ⟨n, List.mem_cons_self, first, rfl⟩
      · obtain ⟨m, hm, k, rfl⟩ := ih h
        exact ⟨m, List.mem_cons_of_mem _ hm, k, rfl⟩

/-- Below the node with a number stand nodes that have it for their parent. -/
theorem exists_of_mem_children_linked {parent : Option Nat} {first : Nat} {n : Node} {c : Linked}
    (h : c ∈ (n.linked parent first).children) :
    ∃ m ∈ n.children, ∃ k, c = m.linked (some first) k := by
  cases n with
  | scalar span value => cases h
  | array span items => exact exists_of_mem_linkedAll h
  | object span properties => exact exists_of_mem_linkedAll h
  | property span key colon value =>
      rcases List.mem_pair.mp h with rfl | rfl
      · exact ⟨key, List.mem_cons_self, _, rfl⟩
      · exact ⟨value, List.mem_pair.mpr (.inr rfl), _, rfl⟩

theorem exists_of_mem_walk_linked {parent : Option Nat} {first : Nat} {n : Node} {q : Linked}
    (h : q ∈ (n.linked parent first).walk) : ∃ m parent first, q = linked parent first m := by
  rw [Linked.walk_eq] at h
  rcases List.mem_cons.mp h with rfl | h
  · exact ⟨n, parent, first, rfl⟩
  · obtain ⟨c, hc, hq⟩ := List.mem_flatMap.mp h
    obtain ⟨m, hm, k, rfl⟩ := exists_of_mem_children_linked hc
    exact exists_of_mem_walk_linked hq
termination_by sizeOf n
decreasing_by exact sizeOf_lt_of_mem_children hm

/-- In a numbered tree the parent of a node is the node that it is a child of. -/
theorem parent?_of_mem_children {parent : Option Nat} {first : Nat} {n : Node} {q c : Linked}
    (hq : q ∈ (n.linked parent first).walk) (hc : c ∈ q.children) :
    c.parent? = some q.number := by
  obtain ⟨m, above, k, rfl⟩ := exists_of_mem_walk_linked hq
  obtain ⟨d, -, l, rfl⟩ := exists_of_mem_children_linked hc
  rw [parent?_linked, number_linked]

end Node

/-! ## The numbers of places -/

/-- How many nodes a walk from the top passes on its way down, siblings and all below them
included. -/
def passed : List Step → Nat
  | [] => 0
  | s :: way => passed way + 1 + Node.countAll (s.above.children.take s.index)

/-- The number of a place in its tree, nodes being numbered along the walk from the top. -/
def Place.number (p : Place) : Nat := passed p.way

/-- A node, its number and that of the node above it. -/
def Linked.label (t : Linked) : Node × Nat × Option Nat := (t.bare, t.number, t.parent?)

/-- A node, its number and that of the place above it. -/
def Place.label (p : Place) : Node × Nat × Option Nat :=
  (p.node, p.number, p.parent?.map Place.number)

/-- The number of the node above the end of a way down. -/
def numberAbove? : List Step → Option Nat
  | [] => none
  | _ :: way => some (passed way)

theorem label_linked (way : List Step) (n : Node) :
    (n.linked (numberAbove? way) (passed way)).label = Place.label ⟨n, way⟩ := by
  rw [Linked.label, Node.bare_linked, Node.number_linked, Node.parent?_linked]
  cases way <;> rfl

theorem Node.countAll_concat (ns : List Node) (n : Node) :
    countAll (ns ++ [n]) = countAll ns + n.count := by
  induction ns with
  | nil => rw [List.nil_append, countAll, countAll, countAll, Nat.add_comm]
  | cons m rest ih => rw [List.cons_append, countAll, countAll, ih, Nat.add_assoc]

mutual

/-- The nodes of a numbered tree have the numbers of their places, and the numbers of the places
above them for their parents. -/
theorem labels_linked (way : List Step) : ∀ n : Node,
    (n.linked (numberAbove? way) (passed way)).walk.map Linked.label =
      (walkNode way n).map Place.label
  | .scalar span value => congrArg ([·]) (label_linked way (.scalar span value))
  | .array span items =>
      congrArg₂ List.cons (label_linked way (.array span items))
        (labels_linkedAll (.array span items) way [] items rfl)
  | .object span properties =>
      congrArg₂ List.cons (label_linked way (.object span properties))
        (labels_linkedAll (.object span properties) way [] properties rfl)
  | .property span key colon value => by
      let above := Node.property span key colon value
      have hkey := labels_linked (⟨above, 0⟩ :: way) key
      have hvalue := labels_linked (⟨above, 1⟩ :: way) value
      refine congrArg₂ List.cons (label_linked way above) ?_
      rw [List.map_append, List.map_append]
      exact congrArg₂ _ hkey hvalue

theorem labels_linkedAll (above : Node) (way : List Step) (before : List Node) :
    ∀ ns : List Node, above.children = before ++ ns →
      (Linked.walkAll (Node.linkedAll (some (passed way))
        (passed way + 1 + Node.countAll before) ns)).map Linked.label =
          (walkNodes above way before.length ns).map Place.label
  | [], _ => rfl
  | n :: rest, h => by
      have hpassed : passed (⟨above, before.length⟩ :: way) =
          passed way + 1 + Node.countAll before := by
        rw [passed, h, List.take_left]
      have hhere := labels_linked (⟨above, before.length⟩ :: way) n
      have hrest := labels_linkedAll above way (before ++ [n]) rest (by rw [h]; simp)
      rw [hpassed] at hhere
      rw [Node.countAll_concat, List.length_append, List.length_singleton, ← Nat.add_assoc] at hrest
      rw [walkNodes, List.map_append, ← hrest, ← hhere, ← List.map_append]
      rfl

end

/-! ## The links of a text -/

/-- The links of a tree are as it lies: no two nodes have the same number, the parent of a node is
the node that it is a child of, and so it stands with the places of the tree. -/
structure Linked.WellLinked (tree : Linked) : Prop where
  top : tree.parent? = none
  distinct : (tree.walk.map Linked.number).Nodup
  above : ∀ t ∈ tree.walk, ∀ c ∈ t.children, c.parent? = some t.number
  places : tree.walk.map Linked.label = (Place.root tree.bare).walk.map Place.label

theorem Node.wellLinked_linked (n : Node) : (n.linked none 0).WellLinked where
  top := parent?_linked none 0 n
  distinct := by
    rw [numbers_linked]
    exact List.nodup_range'
  above _ ht _ hc := parent?_of_mem_children ht hc
  places := by
    rw [bare_linked]
    exact labels_linked [] n

/-- The linked tree of a text is its tree, numbered from zero. -/
theorem parse_of_read {text : List Char} {root : Node} (h : read text = .ok root) :
    parse text = .ok (root.linked none 0) := by
  unfold read at h
  cases hparse : parse text with
  | error e =>
      rw [hparse] at h
      cases h
  | ok tree =>
      rw [hparse] at h
      obtain rfl : tree.bare = root := Except.ok.inj h
      simp only [parse_eq, bind_eq_ok] at hparse
      obtain ⟨_, -, ⟨n, _⟩, -, _, -, hend⟩ := hparse
      split at hend
      · cases hend
        rw [Node.bare_linked]
      · cases hend

end ModAtlas.Document
