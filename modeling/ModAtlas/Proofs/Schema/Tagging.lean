import ModAtlas.Proofs.Document.Reading
import ModAtlas.Schema.Prepared

/-!
# Tagged subschemas

Adding tags keeps the tags that there are. So a rule that holds in a whole schema has its tag in
the table for every subschema that declares its property.
-/

namespace ModAtlas.Schema
open ModAtlas.Json ModAtlas.Document

/-- What a step brings about for one element, and all steps keep, holds at the end of a fold. -/
theorem foldl_of_mem {α β : Type} {P : β → Prop} {f : β → α → β} {l : List α} {a : α}
    (kept : ∀ b x, P b → P (f b x)) (ha : a ∈ l) (reached : ∀ b, P (f b a)) (b : β) :
    P (l.foldl f b) := by
  have hkept (l : List α) (b : β) (hb : P b) : P (l.foldl f b) := by
    induction l generalizing b with
    | nil => exact hb
    | cons x l ih => exact ih (f b x) (kept b x hb)
  obtain ⟨before, after, rfl⟩ := List.append_of_mem ha
  rw [List.foldl_append, List.foldl_cons]
  exact hkept after _ (reached _)

theorem exists_of_mapM {ε α β : Type} {f : α → Except ε β} {l : List α} {l' : List β}
    (h : l.mapM f = .ok l') {a : α} (ha : a ∈ l) : ∃ b ∈ l', f a = .ok b := by
  induction l generalizing l' with
  | nil => cases ha
  | cons x l ih =>
      rw [List.mapM_cons] at h
      obtain ⟨y, hy, h⟩ := bind_eq_ok.mp h
      obtain ⟨ys, hys, h⟩ := bind_eq_ok.mp h
      cases h
      rcases List.mem_cons.mp ha with rfl | ha
      · exact ⟨y, List.mem_cons_self, hy⟩
      · obtain ⟨b, hb, hfb⟩ := ih hys ha
        exact ⟨b, List.mem_cons_of_mem _ hb, hfb⟩

namespace TagTable
variable {table : TagTable} {tag : Tag} {pointer name : String}

/-- A property of a subschema has a tag. -/
def Has (table : TagTable) (pointer name : String) : Prop := (table.get? pointer name).isSome

theorem has_iff : table.Has pointer name ↔
    ∃ t ∈ table, t.pointer = pointer ∧ t.property = name := by
  simp [Has, get?]

theorem Has.add (h : table.Has pointer name) : (table.add tag).Has pointer name := by
  unfold TagTable.add
  split
  · exact h
  · obtain ⟨t, ht, hfor⟩ := has_iff.mp h
    exact has_iff.mpr ⟨t, List.mem_append_left _ ht, hfor⟩

theorem has_add_self : (table.add tag).Has tag.pointer tag.property := by
  unfold TagTable.add
  split
  · rename_i h
    exact h
  · exact has_iff.mpr ⟨tag, List.mem_append_right _ (List.mem_singleton_self _), rfl, rfl⟩

end TagTable

section Tagging
variable {rules : List ScopedRule} {table : TagTable} {sub : Subschema} {pointer name : String}

theorem TagTable.Has.tagSubschema (h : table.Has pointer name) :
    (tagSubschema rules table sub).Has pointer name := by
  unfold Schema.tagSubschema
  split
  · exact h
  · rename_i properties hdeclared
    clear hdeclared
    induction rules generalizing table with
    | nil => exact h
    | cons r rules ih =>
        rw [List.foldl_cons]
        split
        · exact ih h.add
        · exact ih h

/-- A subschema gets the tags of all rules that apply to it. -/
theorem has_tagSubschema {properties : Members} {r : ScopedRule}
    (hdeclared : declared? sub.members = some properties) (hr : r ∈ rules)
    (happlies : r.applies sub.pointer properties = true) :
    (tagSubschema rules table sub).Has sub.pointer r.rule.name := by
  unfold Schema.tagSubschema
  rw [hdeclared]
  refine foldl_of_mem (P := fun t => TagTable.Has t sub.pointer r.rule.name) ?_ hr ?_ table
  · intro t x ht
    split
    · exact ht.add
    · exact ht
  · intro t
    rw [if_pos happlies]
    exact TagTable.has_add_self

/-- A rule for the whole schema tags its property in every subschema that declares it. -/
theorem has_tagsOf {schema : Value} {rules : List TagRule} {tags : TagTable} {rule : TagRule}
    {properties : Members} (htags : tagsOf schema rules = .ok tags)
    (hsub : sub ∈ subschemas "" schema) (hrule : rule ∈ rules) (hscope : rule.scope = "")
    (hdeclared : declared? sub.members = some properties)
    (hhas : Members.has properties rule.name = true) : tags.Has sub.pointer rule.name := by
  obtain ⟨ready, hready, htags⟩ := bind_eq_ok.mp htags
  cases htags
  obtain ⟨r, hr, hscoped⟩ := exists_of_mapM hready hrule
  obtain rfl : r = ⟨rule, [""]⟩ := by
    rw [hscope] at hscoped
    cases hscoped
    rfl
  have happlies : ScopedRule.applies ⟨rule, [""]⟩ sub.pointer properties = true := by
    simp [ScopedRule.applies, hhas, Pointer.within]
  exact foldl_of_mem (P := fun t => TagTable.Has t sub.pointer rule.name)
    (f := tagSubschema ready) (fun _ _ ht => ht.tagSubschema) hsub
    (fun _ => has_tagSubschema hdeclared hr happlies) []

end Tagging

end ModAtlas.Schema
