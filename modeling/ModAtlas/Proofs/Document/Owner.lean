import ModAtlas.Proofs.Document.Reading

/-!
# Strings and the properties they belong to

Going up from a string to its property and going down from a property to the strings of its value
meet: in a keyed tree the owner of a string is a named property with the string in its value,
however deep it lies in arrays.
-/

namespace ModAtlas.Document

theorem stringsInAll_eq (above : Node) (way : List Step) (index : Nat) (nodes : List Node) :
    Place.stringsInAll above way index nodes =
      (placesBelow above way index nodes).flatMap Place.strings := by
  induction nodes generalizing index with
  | nil => rfl
  | cons n rest ih => simp [Place.stringsInAll, placesBelow, ih, Place.strings]

namespace Place
variable {p q r s : Place}

/-- Is the node at a place a string? -/
def IsString (p : Place) : Prop := ∃ span x, p.node = .scalar span (.string x)

theorem isString_iff : p.IsString ↔ ∃ x, p.node.text? = some x := by
  obtain ⟨node, way⟩ := p
  constructor
  · rintro ⟨span, x, rfl⟩
    exact ⟨x, rfl⟩
  · rintro ⟨x, hx⟩
    unfold Node.text? at hx
    split at hx
    · rename_i span y hnode
      exact ⟨span, y, hnode⟩
    · cases hx

theorem strings_of_isString (h : p.IsString) : p.strings = [p] := by
  obtain ⟨node, way⟩ := p
  obtain ⟨span, x, rfl⟩ := h
  rfl

theorem strings_of_array {span : Span} {items : List Node} (h : p.node = .array span items) :
    p.strings = p.children.flatMap strings := by
  obtain ⟨node, way⟩ := p
  obtain rfl : node = .array span items := h
  simp [strings, stringsIn, stringsInAll_eq, children, Node.children]

/-- The strings of a value are strings of the walk. -/
theorem mem_walk_of_mem_strings (h : s ∈ p.strings) : s ∈ p.walk ∧ s.IsString := by
  induction p using induction with
  | step p ih =>
      by_cases hstring : p.IsString
      · rw [strings_of_isString hstring] at h
        obtain rfl := List.mem_singleton.mp h
        exact ⟨self_mem_walk s, hstring⟩
      · obtain ⟨node, way⟩ := p
        cases node with
        | scalar span value =>
            cases value with
            | string x => exact absurd ⟨span, x, rfl⟩ hstring
            | _ => simp [strings, stringsIn] at h
        | array span items =>
            rw [strings_of_array rfl] at h
            obtain ⟨c, hc, hs⟩ := List.mem_flatMap.mp h
            obtain ⟨hwalk, hisString⟩ := ih c hc hs
            exact ⟨mem_walk_iff.mpr (.inr ⟨c, hc, hwalk⟩), hisString⟩
        | object span properties => simp [strings, stringsIn] at h
        | property span key colon value => simp [strings, stringsIn] at h

/-! ## Owners -/

/-- What lies below a property is its key or its value. -/
theorem value?_of_mem_children {span : Span} {key : Node} {colon : Nat} {value : Node}
    (hp : p.node = .property span key colon value) (hr : r ∈ p.children)
    (notKey : r.isKey = false) : p.value? = some r := by
  obtain ⟨node, way⟩ := p
  obtain rfl : node = .property span key colon value := hp
  obtain ⟨j, n, hj, rfl⟩ := mem_children.mp hr
  rcases j with _ | _ | j
  · simp [isKey] at notKey
  · obtain rfl : value = n := by simpa [Node.children] using hj
    rfl
  · simp [Node.children] at hj

/-- In a keyed tree the keys are strings. -/
theorem isString_of_isKey {n : Node} (keyed : n.Keyed) (hq : q ∈ (root n).walk)
    (hkey : q.isKey = true) : q.IsString := by
  rcases eq_or_mem_children_of_mem_walk hq with rfl | ⟨p, hp, hqp⟩
  · cases hkey
  · have hnode : p.node.Keyed := keyed_of_mem_walk keyed hp
    obtain ⟨j, m, hj, rfl⟩ := mem_children.mp hqp
    obtain ⟨node, way⟩ := p
    cases hnode with
    | property span keySpan name colon inner =>
        obtain rfl : j = 0 := by simpa [isKey] using hkey
        obtain rfl : .scalar keySpan (.string name) = m := by simpa [Node.children] using hj
        exact ⟨keySpan, name, rfl⟩
    | _ => simp [isKey] at hkey

/-- The nearest property above a place has the strings of the place in its value. -/
theorem strings_of_propertyAbove {n : Node} (keyed : n.Keyed) (hr : r ∈ (root n).walk)
    (notKey : r.isKey = false) (above : propertyAbove r.way = some q) :
    q ∈ (root n).walk ∧ ∃ v, q.value? = some v ∧ ∀ s ∈ r.strings, s ∈ v.strings := by
  induction hway : r.way generalizing r with
  | nil =>
      rw [hway] at above
      cases above
  | cons step rest ih =>
      rcases eq_or_mem_children_of_mem_walk hr with rfl | ⟨p, hp, hrp⟩
      · cases hway
      · obtain ⟨j, m, hj, hchild⟩ := mem_children.mp hrp
        have hsteps : ⟨p.node, j⟩ :: p.way = step :: rest := by rw [← hway, hchild]
        obtain ⟨rfl, rfl⟩ := List.cons.inj hsteps
        rw [hway, propertyAbove] at above
        cases hnode : p.node with
        | scalar span value => simp [hnode, Node.children] at hj
        | object span properties => simp [hnode] at above
        | property span key colon value =>
            obtain rfl : p = q := by
              rw [hnode] at above
              simpa [← hnode] using above
            exact ⟨hp, r, value?_of_mem_children hnode hrp notKey, fun s hs => hs⟩
        | array span items =>
            have hnotKey : p.isKey = false := by
              by_contra hkey
              obtain ⟨span', x, hstring⟩ :=
                isString_of_isKey keyed hp (Bool.not_eq_false _ ▸ hkey)
              rw [hnode] at hstring
              cases hstring
            obtain ⟨hq, v, hv, hstrings⟩ := ih hp hnotKey (by simpa [hnode] using above) rfl
            refine ⟨hq, v, hv, fun s hs => hstrings s ?_⟩
            rw [strings_of_array hnode]
            exact List.mem_flatMap.mpr ⟨r, hrp, hs⟩

/-- The owner of a string is a named property with the string in its value. -/
theorem mem_strings_of_owner? {n : Node} (keyed : n.Keyed) (hs : s ∈ (root n).walk)
    (hstring : s.IsString) (howner : s.owner? = some q) :
    q ∈ (root n).walk ∧
      ∃ name v, q.node.name? = some name ∧ q.value? = some v ∧ s ∈ v.strings := by
  unfold owner? at howner
  split at howner
  · cases howner
  · rename_i hkey
    obtain ⟨hq, v, hv, hstrings⟩ :=
      strings_of_propertyAbove keyed hs (Bool.eq_false_iff.mpr hkey) howner
    refine ⟨hq, ?_⟩
    have hnode : q.node.Keyed := keyed_of_mem_walk keyed hq
    obtain ⟨node, way⟩ := q
    cases hnode with
    | property span keySpan name colon inner =>
        exact ⟨name, v, rfl, hv, hstrings s (by simp [strings_of_isString hstring])⟩
    | _ => cases hv

end Place
end ModAtlas.Document
