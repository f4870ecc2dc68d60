import Mathlib.Data.List.Nodup
import Mathlib.Data.List.Basic
import ModAtlas.Document.Place

/-!
# The walk over a document tree

The places of a tree are those that are reached from its root by going from a place to one of its
children. No two of them have the same address, so that places of one tree that are the same are
equal.
-/

namespace ModAtlas.Document

theorem mem_placesBelow {above : Node} {way : List Step} {index : Nat} {nodes : List Node}
    {q : Place} :
    q ∈ placesBelow above way index nodes ↔
      ∃ j n, nodes[j]? = some n ∧ q = ⟨n, ⟨above, index + j⟩ :: way⟩ := by
  induction nodes generalizing index with
  | nil => simp [placesBelow]
  | cons n rest ih =>
      rw [placesBelow, List.mem_cons, ih]
      constructor
      · rintro (rfl | ⟨j, m, hj, rfl⟩)
        · exact ⟨0, n, rfl, rfl⟩
        · exact ⟨j + 1, m, hj, by rw [Nat.add_assoc, Nat.add_comm 1 j]⟩
      · rintro ⟨j, m, hj, rfl⟩
        cases j with
        | zero =>
            obtain rfl : n = m := by simpa using hj
            exact .inl rfl
        | succ j =>
            exact .inr ⟨j, m, by simpa using hj, by rw [Nat.add_assoc, Nat.add_comm 1 j]⟩

theorem walkNodes_eq (above : Node) (way : List Step) (index : Nat) (nodes : List Node) :
    walkNodes above way index nodes = (placesBelow above way index nodes).flatMap Place.walk := by
  induction nodes generalizing index with
  | nil => rfl
  | cons n rest ih => simp [walkNodes, placesBelow, ih, Place.walk]

theorem nodeAtAny_eq (withEnd : Bool) (offset : Int) (above : Node) (way : List Step) (index : Nat)
    (nodes : List Node) : nodeAtAny withEnd offset above way index nodes =
      (placesBelow above way index nodes).findSome? (·.at? offset withEnd) := by
  induction nodes generalizing index with
  | nil => rfl
  | cons n rest ih =>
      rw [nodeAtAny, ih, placesBelow, List.findSome?_cons, Place.at?]
      cases nodeAt withEnd offset (⟨above, index⟩ :: way) n <;> rfl

theorem Node.sizeOf_lt_of_mem_children {n c : Node} (h : c ∈ n.children) :
    sizeOf c < sizeOf n := by
  cases n with
  | scalar span value => cases h
  | array span items =>
      have := List.sizeOf_lt_of_mem h
      simp only [Node.children, Node.array.sizeOf_spec] at this ⊢
      omega
  | object span properties =>
      have := List.sizeOf_lt_of_mem h
      simp only [Node.children, Node.object.sizeOf_spec] at this ⊢
      omega
  | property span key colon value =>
      simp only [Node.property.sizeOf_spec]
      rcases List.mem_pair.mp h with rfl | rfl <;> omega

namespace Place
variable {p q r : Place}

theorem mem_children : q ∈ p.children ↔
    ∃ j n, p.node.children[j]? = some n ∧ q = ⟨n, ⟨p.node, j⟩ :: p.way⟩ := by
  rw [children, mem_placesBelow]
  simp

theorem value?_mem_children (h : p.value? = some q) : q ∈ p.children := by
  obtain ⟨node, way⟩ := p
  cases node <;> cases h
  exact mem_children.mpr ⟨1, _, rfl, rfl⟩

theorem sizeOf_lt_of_mem_children (h : q ∈ p.children) : sizeOf q.node < sizeOf p.node := by
  obtain ⟨j, n, hj, rfl⟩ := mem_children.mp h
  exact Node.sizeOf_lt_of_mem_children (List.mem_of_getElem? hj)

/-- What holds of a place whenever it holds of its children holds of all places. -/
theorem induction {motive : Place → Prop}
    (step : ∀ p, (∀ c ∈ p.children, motive c) → motive p) (p : Place) : motive p :=
  step p fun c _ => induction step c
termination_by sizeOf p.node
decreasing_by exact sizeOf_lt_of_mem_children ‹_›

/-- The walk takes a place and then the walks over its children. -/
theorem walk_eq (p : Place) : p.walk = p :: p.children.flatMap walk := by
  obtain ⟨node, way⟩ := p
  cases node with
  | scalar span value => rfl
  | array span items => simp [walk, walkNode, children, Node.children, walkNodes_eq]
  | object span properties => simp [walk, walkNode, children, Node.children, walkNodes_eq]
  | property span key colon value =>
      simp [walk, walkNode, children, Node.children, placesBelow]

theorem mem_walk_iff : q ∈ p.walk ↔ q = p ∨ ∃ c ∈ p.children, q ∈ c.walk := by
  rw [walk_eq, List.mem_cons, List.mem_flatMap]

theorem self_mem_walk (p : Place) : p ∈ p.walk := mem_walk_iff.mpr (.inl rfl)

theorem walk_trans (hq : q ∈ p.walk) (hr : r ∈ q.walk) : r ∈ p.walk := by
  induction p using induction with
  | step p ih =>
      rcases mem_walk_iff.mp hq with rfl | ⟨c, hc, hqc⟩
      · exact hr
      · exact mem_walk_iff.mpr (.inr ⟨c, hc, ih c hc hqc⟩)

theorem mem_walk_of_mem_children (hq : q ∈ p.walk) (hr : r ∈ q.children) : r ∈ p.walk :=
  walk_trans hq (mem_walk_iff.mpr (.inr ⟨r, hr, self_mem_walk r⟩))

/-- Every place of a walk but the first is a child of another place of it. -/
theorem eq_or_mem_children_of_mem_walk (hq : q ∈ p.walk) :
    q = p ∨ ∃ r ∈ p.walk, q ∈ r.children := by
  induction p using induction with
  | step p ih =>
      rcases mem_walk_iff.mp hq with rfl | ⟨c, hc, hqc⟩
      · exact .inl rfl
      · rcases ih c hc hqc with rfl | ⟨r, hr, hqr⟩
        · exact .inr ⟨p, self_mem_walk p, hc⟩
        · exact .inr ⟨r, mem_walk_iff.mpr (.inr ⟨c, hc, hr⟩), hqr⟩

/-! ## The innermost place that holds an offset -/

/-- The innermost place that holds an offset is looked for among the children first. -/
theorem at?_eq (p : Place) (offset : Int) (withEnd : Bool) : p.at? offset withEnd =
    if p.span.holds withEnd offset then
      some ((p.children.findSome? (·.at? offset withEnd)).getD p)
    else none := by
  obtain ⟨node, way⟩ := p
  cases node with
  | scalar span value => rfl
  | array span items =>
      rw [at?, nodeAt, nodeAtAny_eq]
      rfl
  | object span properties =>
      rw [at?, nodeAt, nodeAtAny_eq]
      rfl
  | property span key colon value =>
      have hbelow := nodeAtAny_eq withEnd offset (.property span key colon value) way 0 [key, value]
      simp only [nodeAtAny, Option.or_none] at hbelow
      rw [at?, nodeAt, hbelow]
      rfl

theorem mem_walk_of_at? {offset : Int} {withEnd : Bool} (h : p.at? offset withEnd = some q) :
    q ∈ p.walk := by
  induction p using induction with
  | step p ih =>
      rw [at?_eq, Option.ite_none_right_eq_some, Option.some.injEq] at h
      obtain ⟨-, h⟩ := h
      cases hinner : p.children.findSome? (·.at? offset withEnd) with
      | none =>
          rw [hinner] at h
          exact h ▸ self_mem_walk p
      | some inner =>
          rw [hinner] at h
          obtain ⟨c, hc, hinner⟩ := List.exists_of_findSome?_eq_some hinner
          exact mem_walk_iff.mpr (.inr ⟨c, hc, ih c hc (h ▸ hinner)⟩)

/-! ## Addresses -/

theorem address_of_mem_children (h : q ∈ p.children) : ∃ j, q.address = j :: p.address := by
  obtain ⟨j, n, -, rfl⟩ := mem_children.mp h
  exact ⟨j, rfl⟩

theorem address_suffix (h : q ∈ p.walk) : p.address <:+ q.address := by
  induction p using induction with
  | step p ih =>
      rcases mem_walk_iff.mp h with rfl | ⟨c, hc, hqc⟩
      · exact List.suffix_refl _
      · obtain ⟨j, hj⟩ := address_of_mem_children hc
        exact (hj ▸ List.suffix_cons j p.address).trans (ih c hc hqc)

theorem placesBelow_pairwise (above : Node) (way : List Step) (index : Nat) (nodes : List Node) :
    (placesBelow above way index nodes).Pairwise fun c d => c.address ≠ d.address := by
  induction nodes generalizing index with
  | nil => exact .nil
  | cons n rest ih =>
      refine .cons (fun d hd => ?_) (ih (index + 1))
      obtain ⟨j, m, -, rfl⟩ := mem_placesBelow.mp hd
      simp only [address, List.map_cons, ne_eq, List.cons.injEq, and_true]
      omega

/-- What lies below one child does not lie below another. -/
theorem disjoint_walks {c d : Place} (hc : c ∈ p.children) (hd : d ∈ p.children)
    (hcd : c.address ≠ d.address) :
    List.Disjoint (c.walk.map address) (d.walk.map address) := by
  intro a hac had
  obtain ⟨q, hq, rfl⟩ := List.mem_map.mp hac
  obtain ⟨r, hr, hqr⟩ := List.mem_map.mp had
  have hlength : c.address.length = d.address.length := by
    obtain ⟨i, hi⟩ := address_of_mem_children hc
    obtain ⟨j, hj⟩ := address_of_mem_children hd
    rw [hi, hj]
    rfl
  obtain ⟨s, hs⟩ := address_suffix hq
  obtain ⟨t, ht⟩ := address_suffix hr
  exact hcd (List.append_inj' (hs.trans (hqr.symm.trans ht.symm)) hlength).2

/-- No two places of a walk have the same address. -/
theorem nodup_addresses (p : Place) : (p.walk.map address).Nodup := by
  induction p using induction with
  | step p ih =>
      rw [walk_eq, List.map_cons, List.nodup_cons]
      constructor
      · intro hmem
        obtain ⟨q, hq, hqp⟩ := List.mem_map.mp hmem
        obtain ⟨c, hc, hqc⟩ := List.mem_flatMap.mp hq
        obtain ⟨j, hj⟩ := address_of_mem_children hc
        have hle := (address_suffix hqc).length_le
        rw [hqp, hj, List.length_cons] at hle
        omega
      · rw [List.map_flatMap, List.nodup_flatMap]
        refine ⟨ih, ?_⟩
        apply (placesBelow_pairwise p.node p.way 0 p.node.children).imp_of_mem
        intro c d hc hd hcd
        exact disjoint_walks hc hd hcd

/-- Places of one tree that are the same are equal. -/
theorem eq_of_same {p q r : Place} (hq : q ∈ p.walk) (hr : r ∈ p.walk) (h : q.same r = true) :
    q = r :=
  List.inj_on_of_nodup_map p.nodup_addresses hq hr (eq_of_beq h)

end Place
end ModAtlas.Document
