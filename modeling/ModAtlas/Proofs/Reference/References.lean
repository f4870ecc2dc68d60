import ModAtlas.Proofs.Document.Owner
import ModAtlas.Proofs.Text.Piece
import ModAtlas.Reference.Diagnostic

/-!
# Which references are found

References are looked for by the names of tagged properties and classified by the property above
them. Both ways agree: in the tree of a text the references are the strings that have a category,
each of them once, and a diagnostic stands for each one that is no member.
-/

namespace ModAtlas.Reference
open ModAtlas.Document ModAtlas.Schema ModAtlas.Workspace

/-! ## Tags -/

theorem mem_properties_of_get? {tags : TagTable} {pointer name : String} {c : Category}
    (h : tags.get? pointer name = some c) : name ∈ tags.properties := by
  obtain ⟨t, ht, -⟩ := Option.map_eq_some_iff.mp h
  have hfits := List.find?_some ht
  simp only [Bool.and_eq_true, beq_iff_eq] at hfits
  rw [TagTable.properties, Text.mem_sortedDistinct]
  exact List.mem_map.mpr ⟨t, List.mem_of_find?_eq_some ht, hfits.2⟩

namespace Analysis
variable {a : Analysis}

theorem exists_tag_of_categoryOf {tags : TagTable} {name : String} {object value : Place}
    {found : List Match} {c : Category} (h : categoryOf tags name object value found = some c) :
    ∃ pointer, tags.get? pointer name = some c := by
  induction found with
  | nil => cases h
  | cons m rest ih =>
      rw [categoryOf] at h
      split at h
      · split at h
        · rename_i category htag
          exact ⟨m.pointer, htag.trans h⟩
        · exact ih h
      · exact ih h

/-- A string with a category belongs to a property, and the name of the property is tagged. -/
theorem exists_owner_of_classify {s : Place} {c : Category} (h : a.classify s = some c) :
    ∃ prepared property, a.schema = some prepared ∧ s.owner? = some property ∧
      property.node.name?.getD "" ∈ TagTable.properties prepared.tags := by
  unfold classify at h
  split at h
  · rename_i prepared property hschema howner
    split at h
    · obtain ⟨pointer, htag⟩ := exists_tag_of_categoryOf h
      exact ⟨prepared, property, hschema, howner, mem_properties_of_get? htag⟩
    · cases h
  · cases h

/-- A key has no category. -/
theorem isKey_eq_false_of_classify {s : Place} {c : Category} (h : a.classify s = some c) :
    s.isKey = false := by
  obtain ⟨prepared, property, -, howner, -⟩ := exists_owner_of_classify h
  unfold Place.owner? at howner
  split at howner
  · cases howner
  · rename_i hkey
    exact Bool.eq_false_iff.mpr hkey

/-! ## Strings of tagged properties -/

theorem mem_stringsUnder {names : List String} {s : Place} :
    s ∈ a.stringsUnder names ↔ ∃ name ∈ names, ∃ q ∈ a.place.walk, q.node.name? = some name ∧
      ∃ v, q.value? = some v ∧ s ∈ v.strings := by
  simp only [stringsUnder, Place.findProperties, List.mem_flatMap, List.mem_filter, beq_iff_eq]
  constructor
  · rintro ⟨name, hname, q, ⟨hq, hqname⟩, hs⟩
    cases hv : q.value? with
    | none => simp [hv] at hs
    | some v => exact ⟨name, hname, q, hq, hqname, v, hv, by simpa [hv] using hs⟩
  · rintro ⟨name, hname, q, hq, hqname, v, hv, hs⟩
    exact ⟨name, hname, q, ⟨hq, hqname⟩, by simpa [hv] using hs⟩

theorem mem_walk_of_mem_stringsUnder {names : List String} {s : Place}
    (h : s ∈ a.stringsUnder names) : s ∈ a.place.walk ∧ s.IsString := by
  obtain ⟨name, -, q, hq, -, v, hv, hs⟩ := mem_stringsUnder.mp h
  obtain ⟨hwalk, hstring⟩ := Place.mem_walk_of_mem_strings hs
  exact ⟨Place.walk_trans (Place.mem_walk_of_mem_children hq (Place.value?_mem_children hv)) hwalk,
    hstring⟩

/-! ## Each string once -/

theorem mem_of_mem_unseen {seen : List (List Nat)} {l : List Place} {p : Place}
    (h : p ∈ unseen seen l) : p ∈ l := by
  induction l generalizing seen with
  | nil => cases h
  | cons q rest ih =>
      rw [unseen] at h
      split at h
      · exact List.mem_cons_of_mem _ (ih h)
      · rcases List.mem_cons.mp h with rfl | h
        · exact List.mem_cons_self
        · exact List.mem_cons_of_mem _ (ih h)

theorem address_notMem_of_mem_unseen {seen : List (List Nat)} {l : List Place} {p : Place}
    (h : p ∈ unseen seen l) : p.address ∉ seen := by
  induction l generalizing seen with
  | nil => cases h
  | cons q rest ih =>
      rw [unseen] at h
      split at h
      · exact ih h
      · rename_i hnew
        rcases List.mem_cons.mp h with rfl | h
        · exact hnew
        · exact fun hmem => ih h (List.mem_cons_of_mem _ hmem)

theorem nodup_unseen (seen : List (List Nat)) (l : List Place) : (unseen seen l).Nodup := by
  induction l generalizing seen with
  | nil => exact .nil
  | cons q rest ih =>
      rw [unseen]
      split
      · exact ih seen
      · refine List.nodup_cons.mpr ⟨fun hmem => ?_, ih _⟩
        exact address_notMem_of_mem_unseen hmem List.mem_cons_self

/-- Among those that are kept there is one with the address of any place that is new. -/
theorem exists_mem_unseen {seen : List (List Nat)} {l : List Place} {p : Place} (hp : p ∈ l)
    (new : p.address ∉ seen) : ∃ q ∈ unseen seen l, q.same p = true := by
  induction l generalizing seen with
  | nil => cases hp
  | cons q rest ih =>
      rw [unseen]
      split
      · rename_i hold
        rcases List.mem_cons.mp hp with rfl | hp
        · exact absurd hold new
        · exact ih hp new
      · by_cases hqp : p.address = q.address
        · exact ⟨q, List.mem_cons_self, by simp [Place.same, hqp]⟩
        · rcases List.mem_cons.mp hp with rfl | hp
          · exact absurd rfl hqp
          · obtain ⟨r, hr, hsame⟩ := ih hp
              (show p.address ∉ q.address :: seen by simp [hqp, new])
            exact ⟨r, List.mem_cons_of_mem _ hr, hsame⟩

/-! ## References -/

/-- The references are the strings with a category. -/
theorem mem_references (keyed : a.root.Keyed) {s : Place} {c : Category} :
    (s, c) ∈ a.references ↔ s ∈ a.place.walk ∧ s.IsString ∧ a.classify s = some c := by
  constructor
  · intro h
    unfold references at h
    split at h
    · cases h
    · obtain ⟨s', hs', hmap⟩ := List.mem_filterMap.mp h
      obtain ⟨c', hclassify, heq⟩ := Option.map_eq_some_iff.mp hmap
      cases heq
      obtain ⟨hwalk, hstring⟩ := mem_walk_of_mem_stringsUnder (mem_of_mem_unseen hs')
      exact ⟨hwalk, hstring, hclassify⟩
  · rintro ⟨hwalk, hstring, hclassify⟩
    obtain ⟨prepared, property, hschema, howner, htagged⟩ := exists_owner_of_classify hclassify
    obtain ⟨hproperty, name, v, hname, hv, hs⟩ :=
      Place.mem_strings_of_owner? keyed hwalk hstring howner
    have hunder : s ∈ a.stringsUnder (TagTable.properties prepared.tags) :=
      mem_stringsUnder.mpr
        ⟨name, by simpa [hname] using htagged, property, hproperty, hname, v, hv, hs⟩
    obtain ⟨s', hs', hsame⟩ := exists_mem_unseen hunder (List.not_mem_nil (a := s.address))
    obtain rfl : s' = s :=
      Place.eq_of_same (mem_walk_of_mem_stringsUnder (mem_of_mem_unseen hs')).1 hwalk hsame
    unfold references
    rw [hschema]
    exact List.mem_filterMap.mpr ⟨s', hs', by rw [hclassify]; rfl⟩

theorem nodup_references (a : Analysis) : (a.references.map Prod.fst).Nodup := by
  have hfst (l : List Place) : (l.filterMap fun s => (a.classify s).map (s, ·)).map Prod.fst =
      l.filter fun s => (a.classify s).isSome := by
    induction l with
    | nil => rfl
    | cons s rest ih =>
        cases hclassify : a.classify s <;> simp [hclassify, ih]
  unfold references
  split
  · exact .nil
  · rw [hfst]
    exact (nodup_unseen _ _).filter _

/-! ## Diagnostics -/

/-- What a reference says. -/
def said (r : Place × Category) : String := r.1.node.text?.getD ""

/-- Does a reference name no member of its category? -/
def isMissing (members : MemberStore) (r : Place × Category) : Bool :=
  !members.contains r.2 (said r)

/-- There is one diagnostic for each reference to nothing, in the order of the references. -/
theorem referenceDiagnostics_eq (a : Analysis) (members : MemberStore) :
    a.referenceDiagnostics members =
      (a.references.filter (isMissing members)).map fun r => .ofReference a r.1 r.2 := by
  unfold referenceDiagnostics
  induction a.references with
  | nil => rfl
  | cons r rest ih =>
      cases hcontains : members.contains r.2 (r.1.node.text?.getD "") <;>
        simp [isMissing, said, hcontains, ih]

/-- A store with one more member. -/
def withMember (members : MemberStore) (category : Category) (value : String) : MemberStore :=
  members.setMembers category (value :: members.members category)

theorem contains_withMember (members : MemberStore) (category c : Category) (value v : String) :
    (withMember members category value).contains c v =
      (members.contains c v || (c = category && v = value)) := by
  rw [Bool.eq_iff_iff]
  by_cases hc : c = category
  · subst c
    simp [withMember, MemberStore.contains, MemberStore.setMembers, or_comm]
  · simp [withMember, MemberStore.contains, MemberStore.setMembers, hc]

theorem isMissing_withMember (members : MemberStore) (category : Category) (value : String)
    (r : Place × Category) :
    isMissing (withMember members category value) r =
      (!(r.2 = category && said r = value) && isMissing members r) := by
  simp only [isMissing, contains_withMember, Bool.not_or, Bool.and_comm]

/-- The references of a document are the strings with a category, no key among them and each of
them once; a diagnostic at its range stands for each one that is no member. A further member takes
away the diagnostics of the references that name it, and leaves the others in their order. -/
theorem references_exact {a : Analysis} (hread : read a.text = .ok a.root) :
    (a.references.map Prod.fst).Nodup ∧
    (∀ s c, (s, c) ∈ a.references ↔
      s ∈ a.place.walk ∧ (∃ x, s.node.text? = some x) ∧ a.classify s = some c) ∧
    (∀ s c, (s, c) ∈ a.references → s.isKey = false) ∧
    (∀ s c, (Diagnostic.ofReference a s c).range = a.rangeOf s) ∧
    ∀ members : MemberStore,
      a.referenceDiagnostics members =
        (a.references.filter fun r => !members.contains r.2 (said r)).map
          (fun r => .ofReference a r.1 r.2) ∧
      ∀ category value,
        a.referenceDiagnostics (withMember members category value) =
          ((a.references.filter fun r => !members.contains r.2 (said r)).filter
              fun r => !(r.2 = category && said r = value)).map
            (fun r => .ofReference a r.1 r.2) := by
  have hkeyed := keyed_of_read hread
  refine ⟨nodup_references a, fun s c => ?_, fun s c h => ?_, fun s c => rfl, fun members =>
    ⟨referenceDiagnostics_eq a members, fun category value => ?_⟩⟩
  · rw [mem_references hkeyed, Place.isString_iff]
  · exact isKey_eq_false_of_classify ((mem_references hkeyed).mp h).2.2
  · rw [referenceDiagnostics_eq, List.filter_filter]
    congr 1
    apply List.filter_congr
    intro r hr
    exact isMissing_withMember members category value r

/-! ## A unit with two skins -/

/-- A document that lists skins, one of them twice. -/
def skinsText : List Char := "\x7b\"skins\": [\"x\", [\"y\", \"x\"]], \"x\": \"x\"\x7d".toList

/-- The document under a schema that tags `skins`. -/
def skins : Analysis where
  text := skinsText
  root := ((read skinsText).toOption).getD default
  schema := some ⟨.obj [], [⟨"", "skins", .unitSkin⟩], "unit-schema.json"⟩
  found := [⟨"", [], .root (((read skinsText).toOption).getD default)⟩]

theorem read_skins : read skins.text = .ok skins.root := by
  rfl

theorem references_exact_skins :
    read skins.text = .ok skins.root ∧ (skins.references.map Prod.fst).Nodup ∧
      (skins.references.map fun r => (said r, r.2)) =
        [("x", .unitSkin), ("y", .unitSkin), ("x", .unitSkin)] ∧
      (skins.referenceDiagnostics .empty).length = 3 ∧
      (skins.referenceDiagnostics (withMember .empty .unitSkin "x")).length = 1 := by
  obtain ⟨hnodup, -, -, -, hdiagnostics⟩ := references_exact read_skins
  obtain ⟨hempty, hadded⟩ := hdiagnostics .empty
  rw [hempty, hadded, List.length_map, List.length_map]
  exact ⟨read_skins, hnodup, by decide +kernel⟩

end Analysis
end ModAtlas.Reference
