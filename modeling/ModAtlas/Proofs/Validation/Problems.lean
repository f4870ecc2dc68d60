import ModAtlas.Proofs.Validation.Violations
import ModAtlas.Validation.Problem

/-!
# Violations and problems

Every violation stands for at least one problem, if a violation of `additionalProperties` is only
met where the schema can tell which properties it mentions. Then a document without problems, whose
evaluation ends, has no violations.
-/

namespace ModAtlas.Validation
open ModAtlas.Json ModAtlas.Document

/-- The schema of a violation of `additionalProperties` can tell which keys it mentions. -/
def Violation.Telling (v : Violation) : Prop :=
  v.keyword = some "additionalProperties" →
    ∀ key, (Check.mentions? ((v.schema.get? "properties").getD (.obj [])) key).isSome

theorem kept_telling : Kept fun _ v => v.Telling where
  own _ _ _ htells hkeyword := htells (Option.some.inj hkeyword)
  refused := by
    rintro _ _ ⟨message, rfl⟩ hkeyword
    cases hkeyword
  refusedPart := by
    rintro _ _ _ _ _ ⟨message, rfl⟩ hkeyword
    cases hkeyword
  part _ _ _ _ _ h := h
  name _ _ _ _ h := h

theorem exists_unmentioned {allowed : Value}
    (h : ∀ key, (Check.mentions? allowed key).isSome) (places : List Place) :
    ∃ extra, unmentioned? allowed places = some extra := by
  induction places with
  | nil => exact ⟨[], rfl⟩
  | cons p places ih =>
      obtain ⟨extra, hextra⟩ := ih
      obtain ⟨mentioned, hmentioned⟩ := Option.isSome_iff_exists.mp (h (p.node.name?.getD ""))
      simp [unmentioned?, hmentioned, hextra]

/-- A telling violation stands for some problem. -/
theorem exists_problemsOf (root : Place) {v : Violation} (h : v.Telling) :
    ∃ ps, problemsOf root v = some ps ∧ ps ≠ [] := by
  unfold problemsOf
  dsimp only
  split
  · rename_i hkeyword
    have hmentions : ∀ key,
        (Check.mentions? ((v.schema.get? "properties").getD (.obj [])) key).isSome := by
      apply h
      cases hname : v.keyword with
      | none => simp [hname] at hkeyword
      | some name => simpa [hname] using hkeyword
    obtain ⟨extra, hextra⟩ := exists_unmentioned hmentions (propertiesAt (root.follow v.path))
    rw [hextra]
    refine ⟨_, rfl, ?_⟩
    dsimp only
    split
    · exact List.cons_ne_nil _ _
    · rename_i hsome
      simp_all
  · exact ⟨_, rfl, List.cons_ne_nil _ _⟩

theorem exists_problemsOfAll (root : Place) {vs : List Violation} (h : ∀ v ∈ vs, v.Telling) :
    ∃ ps, problemsOfAll root vs = some ps ∧ (vs ≠ [] → ps ≠ []) := by
  induction vs with
  | nil => exact ⟨[], rfl, fun hne => absurd rfl hne⟩
  | cons v vs ih =>
      obtain ⟨hv, hvs⟩ := List.forall_mem_cons.mp h
      obtain ⟨first, hfirst, hne⟩ := exists_problemsOf root hv
      obtain ⟨more, hmore, -⟩ := ih hvs
      refine ⟨first ++ more, ?_, ?_⟩
      · rw [problemsOfAll, hfirst, Option.bind_some, hmore]
        rfl
      · intro _ hnil
        exact hne (List.append_eq_nil_iff.mp hnil).1

/-- A document without problems has no violations, unless its evaluation breaks off. -/
theorem violations_of_problemsWith_nil {validator : Validator} {root : Node}
    (htelling : (validator.violations root.toValue).All Violation.Telling)
    (hnone : problemsWith validator root = [])
    (hends : (validator.violations root.toValue).broken = false) :
    (validator.violations root.toValue).verdict? = some true := by
  apply Outcome.verdict?_eq_true.mpr
  refine ⟨?_, hends⟩
  obtain ⟨ps, hps, hne⟩ := exists_problemsOfAll (.root root) htelling
  simp only [problemsWith, hends, Bool.false_eq_true, if_false, hps, Option.getD_some,
    inTextOrder] at hnone
  have hlength : ps.length = 0 := by simpa using congrArg List.length hnone
  by_contra hviolated
  exact hne hviolated (List.length_eq_zero_iff.mp hlength)

end ModAtlas.Validation
