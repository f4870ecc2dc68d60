import ModAtlas.Proofs.Document.Ranges

/-!
# Where properties stand

In the tree of a text properties stand below objects and nothing else does. So a place belongs to
no property exactly if it is a key, a property, or lies in arrays only; every other place belongs
to a property with a name, which lies directly below an object.
-/

namespace ModAtlas.Document

/-! ## Properties below objects -/

theorem Form.kind_node {o : Nat} {f : Form} :
    (f.node o).kind = .property ↔ f.isProperty = true := by
  cases f with
  | scalar token value => cases value <;> simp [Form.node, Node.kind, Form.isProperty]
  | _ => simp [Form.node, Node.kind, Form.isProperty]

theorem Parts.kind_of_mem_nodes {properties : Bool} {n : Node} : ∀ {parts : Parts} {o : Nat},
    parts.Valid Gap Token properties → n ∈ parts.nodes o →
      (n.kind = .property ↔ properties = true)
  | .last before part after, o, ⟨_, _, _, hkind⟩, h => by
      rw [List.mem_singleton.mp h, Form.kind_node, hkind]
  | .next before part after rest, o, ⟨⟨_, _, _, hkind⟩, hrest⟩, h => by
      rcases List.mem_cons.mp h with rfl | h
      · rw [Form.kind_node, hkind]
      · exact rest.kind_of_mem_nodes hrest h

theorem Stands.kind_of_mem_children {text : List Char} {f : Form} {n c : Node}
    (h : Stands text f n) (hc : c ∈ n.children) : c.kind = .property ↔ n.kind = .object := by
  obtain ⟨hvalid, -, before, after, -, rfl⟩ := h
  cases f with
  | array items => simpa [Form.node, Node.kind] using items.kind_of_mem_nodes hvalid hc
  | object members => simpa [Form.node, Node.kind] using members.kind_of_mem_nodes hvalid hc
  | property key name left right value =>
      obtain ⟨-, -, -, hkind, -⟩ := hvalid
      rcases List.mem_pair.mp hc with rfl | rfl
      · simp [Form.node, Node.kind]
      · rw [Form.kind_node, hkind]
        simp [Form.node, Node.kind]
  | _ => cases hc

/-- The nearest property above a place is a property of the tree. -/
theorem Place.mem_walk_of_propertyAbove {root : Node} {q : Place}
    (hq : q ∈ (Place.root root).walk) {property : Place}
    (habove : Place.propertyAbove q.way = some property) :
    property ∈ (Place.root root).walk ∧ property.node.kind = .property := by
  induction hway : q.way generalizing q with
  | nil =>
      rw [hway] at habove
      cases habove
  | cons step rest ih =>
      rcases Place.eq_or_mem_children_of_mem_walk hq with rfl | ⟨p, hp, hqp⟩
      · cases hway
      · obtain ⟨j, n, -, rfl⟩ := Place.mem_children.mp hqp
        obtain ⟨rfl, rfl⟩ := List.cons.inj hway
        rw [Place.propertyAbove] at habove
        split at habove
        · rename_i hnode
          cases habove
          exact ⟨hp, by rw [show p.node.kind = _ from congrArg Node.kind hnode]; rfl⟩
        · cases habove
        · exact ih hp habove rfl

section Read
variable {text : List Char} {root : Node} (hread : read text = .ok root)
include hread

/-- A document is no property. -/
theorem kind_root_ne_property : root.kind ≠ .property := by
  obtain ⟨lead, f, tail, hwritten, -, rfl⟩ := exists_written hread
  rw [ne_eq, Form.kind_node, hwritten.kind]
  exact Bool.false_ne_true

/-- Exactly the places below objects are properties. -/
theorem kind_of_mem_children {p c : Place} (hp : p ∈ (Place.root root).walk)
    (hc : c ∈ p.children) : c.node.kind = .property ↔ p.node.kind = .object := by
  obtain ⟨f, hf⟩ := exists_stands hread hp
  exact hf.kind_of_mem_children (Place.node_mem_children hc)

/-! ## Owners -/

namespace Place
variable {q : Place}

/-- The property that a place belongs to has a name and lies directly below an object. -/
theorem exists_object_of_owner? (hq : q ∈ (Place.root root).walk) {property : Place}
    (howner : q.owner? = some property) : ∃ name object,
      property.node.name? = some name ∧ property.parent? = some object ∧
        object ∈ (Place.root root).walk ∧ object.node.kind = .object ∧
          property ∈ object.children := by
  have habove : propertyAbove q.way = some property := by
    unfold owner? at howner
    split at howner
    · cases howner
    · exact howner
  obtain ⟨hmem, hkind⟩ := mem_walk_of_propertyAbove hq habove
  have hkeyed : property.node.Keyed := keyed_of_mem_walk (keyed_of_read hread) hmem
  obtain ⟨name, hname⟩ : ∃ name, property.node.name? = some name := by
    generalize property.node = node at hkind hkeyed
    cases hkeyed with
    | property span keySpan name colon inner => exact ⟨name, rfl⟩
    | scalar span value => cases value <;> cases hkind
    | _ => cases hkind
  rcases eq_or_mem_children_of_mem_walk hmem with rfl | ⟨object, hobject, hchild⟩
  · exact absurd hkind (kind_root_ne_property hread)
  · exact ⟨name, object, hname, parent?_of_mem_children hchild, hobject,
      (kind_of_mem_children hread hobject hchild).mp hkind, hchild⟩

/-- No property lies above a place exactly if it is a property itself or lies in arrays only. -/
theorem propertyAbove_eq_none_iff (hq : q ∈ (Place.root root).walk) :
    propertyAbove q.way = none ↔
      q.node.kind = .property ∨ ∀ step ∈ q.way, step.above.kind = .array := by
  induction hway : q.way generalizing q with
  | nil => simp [propertyAbove]
  | cons step rest ih =>
      rcases eq_or_mem_children_of_mem_walk hq with rfl | ⟨p, hp, hqp⟩
      · cases hway
      · have hkind := kind_of_mem_children hread hp hqp
        obtain ⟨j, n, hj, rfl⟩ := mem_children.mp hqp
        obtain ⟨rfl, rfl⟩ := List.cons.inj hway
        have hrest := ih hp rfl
        rw [propertyAbove, hkind, List.forall_mem_cons]
        cases hnode : p.node with
        | scalar span value => simp [hnode, Node.children] at hj
        | property span key colon value => simp [Node.kind]
        | object span properties => simp [Node.kind]
        | array span items => simpa [hnode, Node.kind] using hrest

/-- A place belongs to no property exactly if it is a key, a property, or lies in arrays only. -/
theorem owner?_eq_none_iff (hq : q ∈ (Place.root root).walk) :
    q.owner? = none ↔ q.isKey = true ∨ q.node.kind = .property ∨
      ∀ step ∈ q.way, step.above.kind = .array := by
  rw [← propertyAbove_eq_none_iff hread hq, owner?]
  cases q.isKey <;> simp

end Place
end Read
end ModAtlas.Document
