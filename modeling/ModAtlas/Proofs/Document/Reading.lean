import ModAtlas.Proofs.Document.Makers
import ModAtlas.Proofs.Document.Walk

/-!
# Trees that were read

In the tree of a text every property has a string for a key. Readers take the reader of what lies
inside as an argument, so that each of them needs one lemma: what it reads is keyed if what that
one reads is.
-/

namespace ModAtlas.Document

/-- The keys of all properties in a tree are strings. -/
inductive Node.Keyed : Node → Prop
  | scalar (span : Span) (value : Scalar) : Keyed (.scalar span value)
  | array (span : Span) {items : List Node} (each : ∀ n ∈ items, Keyed n) :
      Keyed (.array span items)
  | object (span : Span) {properties : List Node} (each : ∀ n ∈ properties, Keyed n) :
      Keyed (.object span properties)
  | property (span keySpan : Span) (name : String) (colon : Nat) {value : Node}
      (inner : Keyed value) :
      Keyed (.property span (.scalar keySpan (.string name)) colon value)

/-! ## Readers -/

theorem bind_eq_ok {ε α β : Type} {x : Except ε α} {f : α → Except ε β} {b : β} :
    x >>= f = .ok b ↔ ∃ a, x = .ok a ∧ f a = .ok b := by
  cases x with
  | error e => simp [bind, Except.bind]
  | ok a => simp [bind, Except.bind]

/-- A reader of keyed trees. -/
def ReadsKeyed (value : Reader Node) : Prop := ∀ c n c', value c = .ok (n, c') → n.Keyed

theorem string_eq_ok {c c' : Cursor} {n : Node} (h : string c = .ok (n, c')) :
    ∃ span s, n = .scalar span (.string s) := by
  rw [string_eq] at h
  split at h
  · cases h
  · split at h
    · cases h
    · cases h
      exact ⟨_, _, rfl⟩

theorem plainScalar_readsKeyed : ReadsKeyed plainScalar := by
  intro c n c' h
  rw [plainScalar_eq] at h
  split at h
  · cases h
    exact .scalar _ _
  · split at h
    · cases h
    · split at h
      · cases h
      · cases h
        exact .scalar _ _

section Containers
variable {value part : Reader Node}

theorem item_readsKeyed (hvalue : ReadsKeyed value) : ReadsKeyed (item value) := by
  intro c n c' h
  obtain ⟨c₁, -, h⟩ := bind_eq_ok.mp h
  exact hvalue _ _ _ h

theorem property_readsKeyed (hvalue : ReadsKeyed value) : ReadsKeyed (property value) := by
  intro c p c' h
  simp only [property, bind_eq_ok] at h
  obtain ⟨c₁, -, c₂, -, ⟨key, c₃⟩, hkey, c₄, -, c₅, -, c₆, -, ⟨v, c₇⟩, hv, h⟩ := h
  cases h
  obtain ⟨keySpan, name, rfl⟩ := string_eq_ok hkey
  exact .property _ keySpan name _ (hvalue _ _ _ hv)

theorem series_keyed (hpart : ReadsKeyed part) {close : Char} {missing unfinished : Fault}
    {fuel : Nat} {c c' : Cursor} {found : List Node}
    (h : series part close missing unfinished fuel c = .ok (found, c')) :
    ∀ n ∈ found, n.Keyed := by
  induction fuel generalizing c found c' with
  | zero => cases h
  | succ fuel ih =>
      simp only [series_succ, bind_eq_ok] at h
      obtain ⟨⟨first, c₁⟩, hfirst, c₂, -, h⟩ := h
      have hkeyed : first.Keyed := hpart _ _ _ hfirst
      split at h
      · obtain ⟨⟨more, c₃⟩, hmore, h⟩ := bind_eq_ok.mp h
        cases h
        exact List.forall_mem_cons.mpr ⟨hkeyed, ih hmore⟩
      · split at h
        · cases h
          exact List.forall_mem_singleton.mpr hkeyed
        · cases h

theorem container_readsKeyed (hpart : ReadsKeyed part) {close : Char}
    {missing unfinished : Fault} {make : Span → List Node → Node}
    (hmake : ∀ span {ns : List Node}, (∀ n ∈ ns, n.Keyed) → (make span ns).Keyed) :
    ReadsKeyed (container part close missing unfinished make) := by
  intro c n c' h
  simp only [container, bind_eq_ok] at h
  obtain ⟨c₁, -, h⟩ := h
  split at h
  · cases h
    exact hmake _ (by simp)
  · obtain ⟨⟨found, c₂⟩, hfound, h⟩ := bind_eq_ok.mp h
    cases h
    exact hmake _ (series_keyed hpart hfound)

end Containers

theorem value_readsKeyed (budget : Nat) : ReadsKeyed (value budget) := by
  induction budget with
  | zero =>
      intro c n c' h
      unfold value at h
      split at h
      · cases h
      · cases h
      · obtain ⟨span, s, rfl⟩ := string_eq_ok h
        exact .scalar span _
      · exact plainScalar_readsKeyed c n c' h
  | succ budget ih =>
      intro c n c' h
      unfold value at h
      split at h
      · exact container_readsKeyed (item_readsKeyed ih) .array _ n c' h
      · exact container_readsKeyed (property_readsKeyed ih) .object _ n c' h
      · obtain ⟨span, s, rfl⟩ := string_eq_ok h
        exact .scalar span _
      · exact plainScalar_readsKeyed c n c' h

/-- The tree of a text is keyed. -/
theorem keyed_of_read {text : List Char} {n : Node} (h : read text = .ok n) : n.Keyed := by
  simp only [read_eq, bind_eq_ok] at h
  obtain ⟨c, -, ⟨m, c₁⟩, hm, c₂, -, h⟩ := h
  split at h
  · cases h
    exact value_readsKeyed _ _ _ _ hm
  · cases h

/-! ## Places of keyed trees -/

namespace Place
variable {p q : Place}

theorem keyed_of_mem_children (hp : p.node.Keyed) (hq : q ∈ p.children) : q.node.Keyed := by
  obtain ⟨j, n, hj, rfl⟩ := mem_children.mp hq
  have hmem := List.mem_of_getElem? hj
  obtain ⟨node, way⟩ := p
  cases hp with
  | scalar span value => cases hmem
  | array span each => exact each n hmem
  | object span each => exact each n hmem
  | property span keySpan name colon inner =>
      rcases List.mem_pair.mp hmem with rfl | rfl
      · exact .scalar _ _
      · exact inner

theorem keyed_of_mem_walk (hp : p.node.Keyed) (hq : q ∈ p.walk) : q.node.Keyed := by
  induction p using induction with
  | step p ih =>
      rcases mem_walk_iff.mp hq with rfl | ⟨c, hc, hqc⟩
      · exact hp
      · exact ih c hc (keyed_of_mem_children hp hc) hqc

end Place
end ModAtlas.Document
