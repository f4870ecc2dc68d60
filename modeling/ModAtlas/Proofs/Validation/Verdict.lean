import Mathlib.Data.List.Basic
import ModAtlas.Validation.Evaluation

/-!
# Verdicts

The verdict on a value depends on the verdicts on its parts alone: whether the first violation
ends an evaluation or all of them are listed makes no difference to it. An evaluation with more
fuel keeps every verdict that was reached with less. `Carries` states both at once, of outcomes,
of keywords and of whole evaluations.
-/

namespace ModAtlas.Validation
open ModAtlas.Json ModAtlas.Document

namespace Outcome
variable {o o' : Outcome} {b b' : Bool} {α : Type}

/-! ## Verdicts of composed outcomes -/

theorem verdict?_eq_true : o.verdict? = some true ↔ o.violations = [] ∧ o.broken = false := by
  obtain ⟨violations, broken⟩ := o
  cases violations <;> cases broken <;> simp [verdict?]

theorem verdict?_eq_false : o.verdict? = some false ↔ o.violations ≠ [] := by
  obtain ⟨violations, broken⟩ := o
  cases violations <;> cases broken <;> simp [verdict?]

@[simp]
theorem verdict?_fine : fine.verdict? = some true := rfl

@[simp]
theorem verdict?_broke : broke.verdict? = none := rfl

@[simp]
theorem verdict?_violated (v : Violation) : (violated v).verdict? = some false := rfl

@[simp]
theorem verdict?_under (step : PathStep) (o : Outcome) : (o.under step).verdict? = o.verdict? := by
  obtain ⟨violations, broken⟩ := o
  cases violations <;> rfl

/-- Behind a valid part the verdict is that on the rest, and no other part leaves it open. -/
theorem verdict?_andThen (b : Bool) (o : Outcome) (next : Unit → Outcome) :
    (andThen b o next).verdict? =
      if o.verdict? = some true then (next ()).verdict? else o.verdict? := by
  obtain ⟨violations, broken⟩ := o
  cases violations <;> cases broken <;> cases b <;> simp [andThen, isOver, verdict?]

theorem verdict?_each_eq_true {f : α → Outcome} {xs : List α} :
    (each b f xs).verdict? = some true ↔ ∀ x ∈ xs, (f x).verdict? = some true := by
  induction xs with
  | nil => simp [each]
  | cons x xs ih =>
      rw [each, verdict?_andThen, List.forall_mem_cons, ← ih]
      split
      · simp_all
      · simp_all

/-! ## Outcomes that carry over -/

/-- What one outcome settles, another one settles alike: a verdict stays, and all is gone through
in the end if it was before. The flags tell whether each of them ends at its first violation; an
outcome that does so may leave a break unseen. -/
structure Carries (b b' : Bool) (o o' : Outcome) : Prop where
  verdict : ∀ a, o.verdict? = some a → o'.verdict? = some a
  unbroken : (b = true → b' = true) → o.broken = false → o'.broken = false

namespace Carries

theorem refl (b b' : Bool) (o : Outcome) : Carries b b' o o :=
  ⟨fun _ h => h, fun _ h => h⟩

/-- An outcome that breaks off at once settles nothing. -/
theorem of_broke : Carries b b' broke o' := by
  constructor
  · intro a h
    cases h
  · intro _ h
    cases h

theorem under (step : PathStep) (h : Carries b b' o o') :
    Carries b b' (o.under step) (o'.under step) := by
  constructor
  · simpa using h.verdict
  · exact h.unbroken

theorem andThen {next next' : Unit → Outcome} (h : Carries b b' o o')
    (hnext : Carries b b' (next ()) (next' ())) :
    Carries b b' (o.andThen b next) (o'.andThen b' next') := by
  constructor
  · intro a
    rw [verdict?_andThen, verdict?_andThen]
    split
    · rename_i hfine
      rw [if_pos (h.verdict true hfine)]
      exact hnext.verdict a
    · rename_i hfine
      intro hverdict
      cases a with
      | true => exact absurd hverdict hfine
      | false => simp [h.verdict false hverdict]
  · intro hle hbroken
    -- a violation that ends the first evaluation is met in the second one as well
    have hover : o.isOver b = true → o.broken = false → o'.isOver b' = true := by
      intro hover hunbroken
      simp only [isOver, hunbroken, Bool.false_or, Bool.and_eq_true, Bool.not_eq_true',
        List.isEmpty_eq_false_iff] at hover
      have hb : b' = true := hle hover.1
      have hviolated := verdict?_eq_false.mp (h.verdict false (verdict?_eq_false.mpr hover.2))
      simp [isOver, hb, hviolated]
    cases hfirst : o.isOver b with
    | true =>
        rw [Outcome.andThen, if_pos hfirst] at hbroken
        rw [Outcome.andThen, if_pos (hover hfirst hbroken)]
        exact h.unbroken hle hbroken
    | false =>
        have hunbroken : o.broken = false := by
          simp only [isOver, Bool.or_eq_false_iff] at hfirst
          exact hfirst.1
        simp only [Outcome.andThen, hfirst, Bool.false_eq_true, if_false] at hbroken
        rw [Outcome.andThen]
        split
        · exact h.unbroken hle hunbroken
        · exact hnext.unbroken hle hbroken

theorem each {f f' : α → Outcome} {xs : List α}
    (h : ∀ x ∈ xs, Carries b b' (f x) (f' x)) :
    Carries b b' (Outcome.each b f xs) (Outcome.each b' f' xs) := by
  induction xs with
  | nil => exact refl b b' fine
  | cons x xs ih =>
      obtain ⟨hx, hxs⟩ := List.forall_mem_cons.mp h
      exact hx.andThen (ih hxs)

end Carries
end Outcome

/-! ## Keywords -/

/-- Every evaluation of one kind carries over to another kind. -/
def CarriesOver (evaluate evaluate' : Bool → Value → Value → Outcome) : Prop :=
  ∀ b b' schema value, Outcome.Carries b b' (evaluate b schema value) (evaluate' b' schema value)

namespace Check
open Outcome (Carries)
variable {c : Check} {evaluate' : Bool → Value → Value → Outcome} {b' : Bool}

/-- The same schema and value, held against each other by other means. -/
def via (c : Check) (evaluate' : Bool → Value → Value → Outcome) (b' : Bool) : Check :=
  { c with evaluate := evaluate', firstOnly := b' }

theorem value_via : (c.via evaluate' b').value = c.value := rfl

theorem carries_required (v : Value) :
    Carries c.firstOnly b' (c.required v) ((c.via evaluate' b').required v) := by
  simp only [required, via]
  split
  · split
    · exact .of_broke
    · apply Carries.each
      intro key _
      exact .refl _ _ _
  · exact .refl _ _ _

section
variable (h : CarriesOver c.evaluate evaluate')
include h

theorem carries_descend (schema : Value) :
    Carries c.firstOnly b' (c.descend schema) ((c.via evaluate' b').descend schema) :=
  h _ _ schema c.value

theorem carries_descendTo (step : PathStep) (schema part : Value) :
    Carries c.firstOnly b' (c.descendTo step schema part)
      ((c.via evaluate' b').descendTo step schema part) := by
  unfold descendTo
  split
  · exact h _ _ _ part
  · exact (h _ _ schema part).under step

theorem accepts?_via {schema value : Value} {a : Bool} (ha : c.accepts? schema value = some a) :
    (c.via evaluate' b').accepts? schema value = some a :=
  (h true true schema value).verdict a ha

theorem acceptsAny?_via {schema : Value} {values : List Value} {a : Bool}
    (ha : c.acceptsAny? schema values = some a) :
    (c.via evaluate' b').acceptsAny? schema values = some a := by
  induction values with
  | nil => exact ha
  | cons x xs ih =>
      rw [acceptsAny?] at ha ⊢
      split at ha
      · rename_i hx
        rw [accepts?_via h hx]
        exact ih ha
      · rename_i hx
        rw [accepts?_via h ha]
        cases a with
        | true => rfl
        | false => exact absurd ha hx

theorem allValid?_via {schemas valid : List Value} (hvalid : c.allValid? schemas = some valid) :
    (c.via evaluate' b').allValid? schemas = some valid := by
  induction schemas generalizing valid with
  | nil => exact hvalid
  | cons schema schemas ih =>
      rw [allValid?] at hvalid ⊢
      split at hvalid
      · cases hvalid
      · rename_i a ha
        obtain ⟨more, hmore, rfl⟩ := Option.map_eq_some_iff.mp hvalid
        rw [value_via, accepts?_via h ha, ih hmore]
        rfl

/-- Trying schemas leads to the same one if it leads to an end. -/
theorem firstValid_via (b' : Bool) (schemas : List Value) :
    c.firstValid schemas = .broke ∨
      (c.via evaluate' b').firstValid schemas = c.firstValid schemas := by
  induction schemas with
  | nil => exact .inr rfl
  | cons schema schemas ih =>
      have hcarries := h false false schema c.value
      simp only [firstValid]
      cases hbroken : (c.evaluate false schema c.value).broken with
      | true => exact .inl (by simp)
      | false =>
          have hunbroken := hcarries.unbroken id hbroken
          have hempty : (evaluate' false schema c.value).violations.isEmpty =
              (c.evaluate false schema c.value).violations.isEmpty := by
            cases hviolations : (c.evaluate false schema c.value).violations with
            | nil =>
                have := hcarries.verdict true (Outcome.verdict?_eq_true.mpr ⟨hviolations, hbroken⟩)
                simp [(Outcome.verdict?_eq_true.mp this).1]
            | cons v vs =>
                have :=
                  hcarries.verdict false (Outcome.verdict?_eq_false.mpr (by simp [hviolations]))
                simpa using Outcome.verdict?_eq_false.mp this
          simp only [via, hunbroken, hempty, Bool.false_eq_true, if_false]
          split
          · exact .inr rfl
          · exact ih

/-! ### Items -/

theorem carries_items (v : Value) :
    Carries c.firstOnly b' (c.items v) ((c.via evaluate' b').items v) := by
  simp only [items, via]
  split
  · split
    · apply Carries.each
      intro p _
      exact carries_descendTo h _ _ _
    · apply Carries.each
      intro p _
      exact carries_descendTo h _ _ _
  · exact .refl _ _ _

theorem carries_additionalItems (v : Value) :
    Carries c.firstOnly b' (c.additionalItems v) ((c.via evaluate' b').additionalItems v) := by
  simp only [additionalItems, via]
  split
  · exact .refl _ _ _
  · split
    · exact .of_broke
    · split
      · apply Carries.each
        intro p _
        exact carries_descendTo h _ _ _
      · exact .refl _ _ _
  · exact .refl _ _ _

theorem carries_contains (v : Value) :
    Carries c.firstOnly b' (c.contains v) ((c.via evaluate' b').contains v) := by
  simp only [contains, value_via]
  split
  · rename_i values _
    cases hfound : c.acceptsAny? v values with
    | none => exact .of_broke
    | some found =>
        rw [acceptsAny?_via h hfound]
        exact .refl _ _ _
  · exact .refl _ _ _

/-! ### Members -/

theorem carries_properties (v : Value) :
    Carries c.firstOnly b' (c.properties v) ((c.via evaluate' b').properties v) := by
  simp only [properties, via]
  split
  · split
    · apply Carries.each
      intro p _
      split
      · exact .refl _ _ _
      · exact carries_descendTo h _ _ _
    · exact .of_broke
  · exact .refl _ _ _

theorem carries_patternProperties (v : Value) :
    Carries c.firstOnly b' (c.patternProperties v)
      ((c.via evaluate' b').patternProperties v) := by
  simp only [patternProperties, via]
  split
  · split
    · apply Carries.each
      intro p _
      apply Carries.each
      intro m _
      split
      · exact .of_broke
      · split
        · exact carries_descendTo h _ _ _
        · exact .refl _ _ _
    · exact .of_broke
  · exact .refl _ _ _

theorem carries_additionalProperties (v : Value) :
    Carries c.firstOnly b' (c.additionalProperties v)
      ((c.via evaluate' b').additionalProperties v) := by
  simp only [additionalProperties, via]
  split
  · split
    · exact .of_broke
    · split
      · apply Carries.each
        intro key _
        split
        · exact .refl _ _ _
        · exact carries_descendTo h _ _ _
      · exact .refl _ _ _
  · exact .refl _ _ _

theorem carries_propertyNames (v : Value) :
    Carries c.firstOnly b' (c.propertyNames v) ((c.via evaluate' b').propertyNames v) := by
  simp only [propertyNames, via]
  split
  · apply Carries.each
    intro key _
    exact h _ _ _ _
  · exact .refl _ _ _

theorem carries_dependencies (v : Value) :
    Carries c.firstOnly b' (c.dependencies v) ((c.via evaluate' b').dependencies v) := by
  simp only [dependencies, via]
  split
  · split
    · apply Carries.each
      intro p _
      split
      · split
        · apply Carries.each
          intro key _
          exact .refl _ _ _
        · exact carries_descend h _
      · exact .refl _ _ _
    · exact .of_broke
  · exact .refl _ _ _

/-! ### Combinations -/

theorem carries_allOf (v : Value) :
    Carries c.firstOnly b' (c.allOf v) ((c.via evaluate' b').allOf v) := by
  simp only [allOf]
  split
  · exact .of_broke
  · apply Carries.each
    intro schema _
    exact carries_descend h schema

theorem carries_anyOf (v : Value) :
    Carries c.firstOnly b' (c.anyOf v) ((c.via evaluate' b').anyOf v) := by
  unfold anyOf
  cases elements? v with
  | none => exact .of_broke
  | some schemas =>
      rcases firstValid_via h b' schemas with hbroke | htried
      · simp only [hbroke]
        exact .of_broke
      · simp only [htried]
        exact .refl _ _ _

theorem carries_oneOf (v : Value) :
    Carries c.firstOnly b' (c.oneOf v) ((c.via evaluate' b').oneOf v) := by
  unfold oneOf
  cases elements? v with
  | none => exact .of_broke
  | some schemas =>
      rcases firstValid_via h b' schemas with hbroke | htried
      · simp only [hbroke]
        exact .of_broke
      · simp only [htried]
        cases c.firstValid schemas with
        | broke => exact .of_broke
        | nothing => exact .refl _ _ _
        | found schema untried =>
            cases hmore : c.allValid? untried with
            | none =>
                simp only [hmore]
                exact .of_broke
            | some more =>
                simp only [hmore, allValid?_via h hmore]
                exact .refl _ _ _

theorem carries_negation (v : Value) :
    Carries c.firstOnly b' (c.negation v) ((c.via evaluate' b').negation v) := by
  unfold negation
  cases hvalid : c.accepts? v c.value with
  | none => exact .of_broke
  | some valid =>
      rw [value_via, accepts?_via h hvalid]
      exact .refl _ _ _

theorem carries_conditional (v : Value) :
    Carries c.firstOnly b' (c.conditional v) ((c.via evaluate' b').conditional v) := by
  unfold conditional
  cases hvalid : c.accepts? v c.value with
  | none => exact .of_broke
  | some valid =>
      rw [value_via, accepts?_via h hvalid]
      simp only [via]
      split
      · exact .refl _ _ _
      · exact carries_descend h _

theorem carries_reference (v : Value) :
    Carries c.firstOnly b' (c.reference v) ((c.via evaluate' b').reference v) := by
  simp only [reference, via]
  split
  · exact .of_broke
  · exact carries_descend h _

/-! ### All keywords -/

theorem carries_keyword (name : String) (v : Value) :
    Carries c.firstOnly b' (c.keyword name v) ((c.via evaluate' b').keyword name v) := by
  unfold keyword
  split
  · exact carries_reference h v
  · exact carries_additionalItems h v
  · exact carries_additionalProperties h v
  · exact carries_allOf h v
  · exact carries_anyOf h v
  · exact .refl _ _ _
  · exact carries_contains h v
  · exact carries_dependencies h v
  · exact .refl _ _ _
  · exact .refl _ _ _
  · exact .refl _ _ _
  · exact carries_conditional h v
  · exact carries_items h v
  · exact .refl _ _ _
  · exact .refl _ _ _
  · exact .refl _ _ _
  · exact .refl _ _ _
  · exact .refl _ _ _
  · exact .refl _ _ _
  · exact .refl _ _ _
  · exact .refl _ _ _
  · exact .refl _ _ _
  · exact carries_negation h v
  · exact carries_oneOf h v
  · exact .refl _ _ _
  · exact carries_patternProperties h v
  · exact carries_properties h v
  · exact carries_propertyNames h v
  · exact carries_required v
  · exact .refl _ _ _
  · exact .refl _ _ _
  · exact .refl _ _ _

end
end Check

/-! ## Evaluations -/

/-- More fuel, and a different use of the first violation, keep what is settled. -/
theorem carriesOver_evaluate (root : Value) {fuel fuel' : Nat} (hle : fuel ≤ fuel') :
    CarriesOver (evaluate root fuel) (evaluate root fuel') := by
  induction fuel generalizing fuel' with
  | zero =>
      intro b b' schema value
      exact .of_broke
  | succ fuel ih =>
      obtain ⟨fuel', rfl⟩ := Nat.exists_eq_add_of_lt hle
      intro b b' schema value
      have hover := ih (Nat.le_add_right fuel fuel')
      simp only [evaluate]
      split
      · exact .refl _ _ _
      · exact .refl _ _ _
      · rename_i members
        let c : Check := ⟨evaluate root fuel, root, b, members, value⟩
        split
        · apply Outcome.Carries.each
          intro m _
          exact Check.carries_keyword (c := c) hover m.1 m.2
        · exact Check.carries_keyword (c := c) hover "$ref" _
      · exact .of_broke

end ModAtlas.Validation
