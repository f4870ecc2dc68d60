import ModAtlas.Proofs.Document.Following
import ModAtlas.Proofs.Validation.Verdict

/-!
# What holds of violations

A property of violations that relates each of them to the value held against the schema holds of a
whole evaluation if it is kept by what the keywords do: they report violations of their own, and
they pass on those of the value itself, of a part of it, or of one of its keys. One lemma for each
keyword carries it through.
-/

namespace ModAtlas.Validation
open ModAtlas.Json ModAtlas.Document

/-- The violation of the schema `false` by a value. -/
def Violation.Refuses (v : Violation) (value : Value) : Prop :=
  ∃ message, v = ⟨none, message, [], .bool false, value⟩

/-- The schema of a check can tell of every key whether it mentions it. -/
def Check.Tells (c : Check) : Prop :=
  ∀ key, (Check.mentions? ((Members.get? c.schema "properties").getD (.obj [])) key).isSome

/-- A property of violations, and of the value that was held against the schema, is kept by all
that keywords do. -/
structure Kept (P : Value → Violation → Prop) : Prop where
  own : ∀ (c : Check) (name message : String), (name = "additionalProperties" → c.Tells) →
    P c.value ⟨some name, message, [], .obj c.schema, c.value⟩
  refused : ∀ value v, v.Refuses value → P value v
  refusedPart : ∀ value step part v, IsPart value step part → v.Refuses part → P value v
  part : ∀ value step part v, IsPart value step part → P part v →
    P value { v with path := step :: v.path }
  name : ∀ members key v, key ∈ Members.keys members → P (.str key) v → P (.obj members) v

namespace Outcome
variable {α : Type} {P Q : Violation → Prop} {o : Outcome}

/-- All violations have a property. -/
def All (P : Violation → Prop) (o : Outcome) : Prop := ∀ v ∈ o.violations, P v

theorem all_fine : fine.All P := fun _ hv => nomatch hv

theorem all_broke : broke.All P := fun _ hv => nomatch hv

theorem all_violated {v : Violation} (h : P v) : (violated v).All P := by
  intro w hw
  obtain rfl := List.mem_singleton.mp hw
  exact h

theorem All.imp (h : o.All P) (himp : ∀ v, P v → Q v) : o.All Q := fun v hv => himp v (h v hv)

theorem All.under (h : o.All P) (step : PathStep)
    (hstep : ∀ v, P v → Q { v with path := step :: v.path }) : (o.under step).All Q := by
  intro v hv
  obtain ⟨w, hw, rfl⟩ := List.mem_map.mp hv
  exact hstep w (h w hw)

theorem All.andThen (h : o.All P) (firstOnly : Bool) {next : Unit → Outcome}
    (hnext : (next ()).All P) : (o.andThen firstOnly next).All P := by
  unfold Outcome.andThen
  split
  · exact h
  · intro v hv
    rcases List.mem_append.mp hv with hv | hv
    · exact h v hv
    · exact hnext v hv

theorem all_each {f : α → Outcome} {xs : List α} (firstOnly : Bool)
    (h : ∀ x ∈ xs, (f x).All P) : (each firstOnly f xs).All P := by
  induction xs with
  | nil => exact all_fine
  | cons x xs ih =>
      obtain ⟨hx, hxs⟩ := List.forall_mem_cons.mp h
      exact hx.andThen firstOnly (ih hxs)

end Outcome

/-- A property holds of all violations of an evaluation, and the schema `false` has one violation
at most. -/
structure Evaluates (P : Value → Violation → Prop) (evaluate : Bool → Value → Value → Outcome) :
    Prop where
  every : ∀ b schema value, (evaluate b schema value).All (P value)
  refusal : ∀ b value, (evaluate b (.bool false) value).All (Violation.Refuses · value)

namespace Check
open Outcome (all_fine all_broke all_each)
variable {P : Value → Violation → Prop} {c : Check} {name words : String}

section Keywords
variable (kept : Kept P)
include kept

/-! ## Keywords with violations of their own -/

section Own
variable (hname : name ≠ "additionalProperties")
include hname

theorem all_violates (message : String) : (c.violates name message).All (P c.value) :=
  Outcome.all_violated (kept.own c name message fun h => absurd h hname)

theorem all_violatesIf (condition : Bool) (message : String) :
    (c.violatesIf condition name message).All (P c.value) := by
  unfold violatesIf
  split
  · exact all_violates kept hname message
  · exact all_fine

theorem all_bound (v : Value) (breaks : Number → Number → Bool) :
    (c.bound v breaks name words).All (P c.value) := by
  unfold bound
  split
  · split
    · exact all_broke
    · exact all_violatesIf kept hname _ _
  · exact all_fine

theorem all_leastSize (v : Value) (size? : Option Nat) :
    (c.leastSize v size? name words).All (P c.value) := by
  unfold leastSize
  split
  · exact all_fine
  · split
    · exact all_broke
    · exact all_violatesIf kept hname _ _

theorem all_greatestSize (v : Value) (size? : Option Nat) :
    (c.greatestSize v size? name words).All (P c.value) := by
  unfold greatestSize
  split
  · exact all_fine
  · split
    · exact all_broke
    · exact all_violatesIf kept hname _ _

theorem all_requireKey (members : Members) (v : Value) :
    (c.requireKey members name words v).All (P c.value) := by
  unfold requireKey
  split
  · exact all_violatesIf kept hname _ _
  · exact all_broke
  · exact all_broke
  · exact all_violates kept hname _

end Own

theorem all_type (v : Value) : (c.type v).All (P c.value) := by
  unfold type
  dsimp only
  split
  · exact all_broke
  · split
    · exact all_broke
    · exact all_violatesIf kept (by decide) _ _

theorem all_enum (v : Value) : (c.enum v).All (P c.value) := by
  unfold enum
  split
  · exact all_broke
  · exact all_violatesIf kept (by decide) _ _

theorem all_multipleOf (v : Value) : (c.multipleOf v).All (P c.value) := by
  unfold multipleOf
  split
  · dsimp only
    split
    · exact all_broke
    · exact all_violatesIf kept (by decide) _ _
  · exact all_fine

theorem all_pattern (v : Value) : (c.pattern v).All (P c.value) := by
  unfold pattern
  split
  · split
    · exact all_broke
    · exact all_violatesIf kept (by decide) _ _
  · exact all_fine

theorem all_contains (v : Value) : (c.contains v).All (P c.value) := by
  unfold contains
  split
  · split
    · exact all_broke
    · exact all_violatesIf kept (by decide) _ _
  · exact all_fine

theorem all_uniqueItems (v : Value) : (c.uniqueItems v).All (P c.value) := by
  unfold uniqueItems
  split
  · exact all_violatesIf kept (by decide) _ _
  · exact all_fine

theorem all_required (v : Value) : (c.required v).All (P c.value) := by
  unfold required
  split
  · split
    · exact all_broke
    · apply all_each
      intro key _
      exact all_requireKey kept (by decide) _ key
  · exact all_fine

theorem all_anyOf (v : Value) : (c.anyOf v).All (P c.value) := by
  unfold anyOf
  split
  · exact all_broke
  · split
    · exact all_broke
    · exact all_violates kept (by decide) _
    · exact all_fine

theorem all_oneOf (v : Value) : (c.oneOf v).All (P c.value) := by
  unfold oneOf
  split
  · exact all_broke
  · split
    · exact all_broke
    · exact all_violates kept (by decide) _
    · split
      · exact all_broke
      · exact all_violatesIf kept (by decide) _ _

theorem all_negation (v : Value) : (c.negation v).All (P c.value) := by
  unfold negation
  split
  · exact all_broke
  · exact all_violatesIf kept (by decide) _ _

/-! ## Keywords that evaluate further schemas -/

omit kept in
/-- Where some key is no other keyword's, the schema can tell of each key whether it is declared. -/
theorem tells_of_extraKeys {joined : String} {keys extra : List String}
    (h : extraKeys? c.schema joined keys = some extra) (hextra : extra ≠ []) : c.Tells := by
  intro key
  have hshape {v : Value} (first : String) (hfirst : mentions? v first ≠ none) :
      (mentions? v key).isSome := by
    cases v with
    | obj | arr | str => rfl
    | null | bool | num => exact absurd rfl hfirst
  cases keys with
  | nil =>
      cases h
      exact absurd rfl hextra
  | cons first keys =>
      apply hshape first
      intro hnone
      rw [extraKeys?, hnone] at h
      cases h

omit kept in
theorem getElem?_of_mem_indexed {items : List Value} {p : Nat × Value} (h : p ∈ indexed items) :
    items[p.1]? = some p.2 := by
  obtain ⟨i, hi⟩ := List.mem_iff_getElem?.mp h
  obtain ⟨hrange, hitem⟩ := List.getElem?_zip_eq_some.mp hi
  obtain ⟨hlt, hindex⟩ := List.getElem?_eq_some_iff.mp hrange
  rw [List.getElem_range] at hindex
  rw [← hindex, hitem]

section Evaluating
variable (h : Evaluates P c.evaluate)
include h

theorem all_descendTo {step : PathStep} {part : Value} (hpart : IsPart c.value step part)
    (schema : Value) : (c.descendTo step schema part).All (P c.value) := by
  unfold descendTo
  split
  · exact (h.refusal _ part).imp fun v hv => kept.refusedPart _ step part v hpart hv
  · exact (h.every _ _ part).under step fun v hv => kept.part _ step part v hpart hv

omit kept in
theorem all_descend (schema : Value) : (c.descend schema).All (P c.value) := h.every _ _ _

theorem all_items (v : Value) : (c.items v).All (P c.value) := by
  unfold items
  split
  · rename_i values hvalue
    have hpart {p : Nat × Value} (hp : p ∈ indexed values) :
        IsPart c.value (.index p.1) p.2 := hvalue ▸ .item (getElem?_of_mem_indexed hp)
    split
    · apply all_each
      intro p hp
      exact all_descendTo kept h (hpart (List.of_mem_zip hp).1) _
    · apply all_each
      intro p hp
      exact all_descendTo kept h (hpart hp) _
  · exact all_fine

theorem all_additionalItems (v : Value) : (c.additionalItems v).All (P c.value) := by
  unfold additionalItems
  split
  · exact all_fine
  · rename_i values listed hvalue _
    split
    · exact all_broke
    · dsimp only
      split
      · apply all_each
        intro p hp
        have hitem := getElem?_of_mem_indexed (List.mem_of_mem_drop hp)
        exact all_descendTo kept h (hvalue ▸ .item hitem) _
      · exact all_violatesIf kept (by decide) _ _
  · exact all_fine

theorem all_properties (v : Value) : (c.properties v).All (P c.value) := by
  unfold properties
  split
  · rename_i members hvalue
    split
    · apply all_each
      intro p _
      split
      · exact all_fine
      · rename_i x hx
        exact all_descendTo kept h (hvalue ▸ .member (Members.mem_of_get? hx)) _
    · exact all_broke
  · exact all_fine

theorem all_patternProperties (v : Value) : (c.patternProperties v).All (P c.value) := by
  unfold patternProperties
  split
  · rename_i members hvalue
    split
    · apply all_each
      intro p _
      apply all_each
      intro m hm
      split
      · exact all_broke
      · split
        · exact all_descendTo kept h (hvalue ▸ .member hm) _
        · exact all_fine
    · exact all_broke
  · exact all_fine

theorem all_additionalProperties (v : Value) : (c.additionalProperties v).All (P c.value) := by
  unfold additionalProperties
  split
  · rename_i members hvalue
    split
    · exact all_broke
    · rename_i extra hextra
      split
      · apply all_each
        intro key _
        split
        · exact all_fine
        · rename_i x hx
          exact all_descendTo kept h (hvalue ▸ .member (Members.mem_of_get? hx)) _
      · unfold violatesIf
        split
        · rename_i hviolates
          obtain ⟨joined, -, hextra⟩ := Option.bind_eq_some_iff.mp hextra
          apply Outcome.all_violated
          apply kept.own
          intro _
          apply tells_of_extraKeys hextra
          rintro rfl
          simp at hviolates
        · exact all_fine
  · exact all_fine

theorem all_propertyNames (v : Value) : (c.propertyNames v).All (P c.value) := by
  unfold propertyNames
  split
  · rename_i members hvalue
    apply all_each
    intro key hkey
    rw [hvalue]
    exact (h.every _ _ _).imp fun e he => kept.name members key e hkey he
  · exact all_fine

theorem all_dependencies (v : Value) : (c.dependencies v).All (P c.value) := by
  unfold dependencies
  split
  · split
    · apply all_each
      intro p _
      split
      · split
        · apply all_each
          intro key _
          exact all_requireKey kept (by decide) _ key
        · exact all_descend h _
      · exact all_fine
    · exact all_broke
  · exact all_fine

omit kept

theorem all_allOf (v : Value) : (c.allOf v).All (P c.value) := by
  unfold allOf
  split
  · exact all_broke
  · apply all_each
    intro schema _
    exact all_descend h schema

theorem all_conditional (v : Value) : (c.conditional v).All (P c.value) := by
  unfold conditional
  split
  · exact all_broke
  · split
    · exact all_fine
    · exact all_descend h _

theorem all_reference (v : Value) : (c.reference v).All (P c.value) := by
  unfold reference
  split
  · exact all_broke
  · exact all_descend h _

include kept

theorem all_keyword (name : String) (v : Value) : (c.keyword name v).All (P c.value) := by
  unfold keyword
  split
  · exact all_reference h v
  · exact all_additionalItems kept h v
  · exact all_additionalProperties kept h v
  · exact all_allOf h v
  · exact all_anyOf kept v
  · exact all_violatesIf kept (by decide) _ _
  · exact all_contains kept v
  · exact all_dependencies kept h v
  · exact all_enum kept v
  · exact all_bound kept (by decide) v _
  · exact all_bound kept (by decide) v _
  · exact all_conditional h v
  · exact all_items kept h v
  · exact all_greatestSize kept (by decide) v _
  · exact all_greatestSize kept (by decide) v _
  · exact all_greatestSize kept (by decide) v _
  · exact all_bound kept (by decide) v _
  · exact all_leastSize kept (by decide) v _
  · exact all_leastSize kept (by decide) v _
  · exact all_leastSize kept (by decide) v _
  · exact all_bound kept (by decide) v _
  · exact all_multipleOf kept v
  · exact all_negation kept v
  · exact all_oneOf kept v
  · exact all_pattern kept v
  · exact all_patternProperties kept h v
  · exact all_properties kept h v
  · exact all_propertyNames kept h v
  · exact all_required kept v
  · exact all_type kept v
  · exact all_uniqueItems kept v
  · exact all_fine

end Evaluating
end Keywords
end Check

/-! ## Evaluations -/

/-- What keywords keep holds of all violations of an evaluation. -/
theorem Kept.evaluates {P : Value → Violation → Prop} (kept : Kept P) (root : Value)
    (fuel : Nat) : Evaluates P (evaluate root fuel) := by
  induction fuel with
  | zero => exact ⟨fun _ _ _ => Outcome.all_broke, fun _ _ => Outcome.all_broke⟩
  | succ fuel ih =>
      have hrefuses (value : Value) : Violation.Refuses
          ⟨none, "False schema does not allow " ++ value.literal, [], .bool false, value⟩ value :=
        ⟨_, rfl⟩
      refine ⟨fun b schema value => ?_, fun b value => Outcome.all_violated (hrefuses value)⟩
      simp only [evaluate]
      split
      · exact Outcome.all_fine
      · exact Outcome.all_violated (kept.refused value _ (hrefuses value))
      · rename_i members
        let c : Check := ⟨evaluate root fuel, root, b, members, value⟩
        split
        · apply Outcome.all_each
          intro m _
          exact Check.all_keyword (c := c) kept ih m.1 m.2
        · exact Check.all_keyword (c := c) kept ih "$ref" _
      · exact Outcome.all_broke

/-- What keywords keep holds of all violations of a value under a whole schema. -/
theorem Kept.violations {P : Value → Violation → Prop} (kept : Kept P) (schema value : Value) :
    (Validation.violations schema value).All (P value) :=
  (kept.evaluates schema _).every _ _ _

end ModAtlas.Validation
