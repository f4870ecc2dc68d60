import ModAtlas.Document.Reader
import ModAtlas.Proofs.Validation.Violations

/-!
# Where violations are placed

The path of a violation is followed in the tree of the document. It leads to the place of the value
that the violation is about, with two exceptions. A part that the schema `false` refuses and a key
are reported at the value above them. And where an object repeats a key, the values are held
against the schema as they were written last, while the path is followed to what was written first.

This holds of every violation whose path leads, in the value of the document, to what it is about
or to what it is reported at, whichever validator reports it. `kept_placed` shows it of the one
that runs.
-/

namespace ModAtlas.Validation
open ModAtlas.Json ModAtlas.Document

/-- A violation is reported at a value although it is about a part of it that the schema `false`
refuses, or about one of its keys. -/
def Violation.Strays (v : Violation) (host : Value) : Prop :=
  (v.keyword = none ∧ ∃ step, IsPart host step v.value) ∨
    ∃ members key, host = .obj members ∧ key ∈ Members.keys members ∧ v.value = .str key

/-- The path of a violation leads to the value that it is about, or that it is reported at. -/
def Violation.Placed (value : Value) (v : Violation) : Prop :=
  ∃ host, Leads value v.path host ∧ (v.value = host ∨ v.Strays host)

variable {v : Violation} {host : Value}

theorem sizeOf_lt_of_isPart {part : Value} {step : PathStep} (h : IsPart host step part) :
    sizeOf part < sizeOf host := by
  cases h with
  | item there =>
      have := List.sizeOf_lt_of_mem (List.mem_of_getElem? there)
      rw [Value.arr.sizeOf_spec]
      omega
  | member there =>
      have := List.sizeOf_lt_of_mem there
      rw [Prod.mk.sizeOf_spec] at this
      rw [Value.obj.sizeOf_spec]
      omega

theorem Violation.Strays.ne (h : v.Strays host) : v.value ≠ host := by
  rintro rfl
  rcases h with ⟨-, step, hpart⟩ | ⟨members, key, hobject, -, hkey⟩
  · exact Nat.lt_irrefl _ (sizeOf_lt_of_isPart hpart)
  · cases hobject.symm.trans hkey

/-- A key has no parts, so that what is placed in it is about itself. -/
theorem Violation.Placed.value_eq_key {key : String} (h : v.Placed (.str key)) :
    v.path = [] ∧ v.value = .str key := by
  obtain ⟨host, hleads, habout⟩ := h
  generalize v.path = path at hleads ⊢
  cases hleads with
  | step first rest => cases first
  | here =>
      refine ⟨rfl, ?_⟩
      rcases habout with habout | ⟨-, step, hpart⟩ | ⟨members, _, hobject, -, -⟩
      · exact habout
      · cases hpart
      · cases hobject

theorem kept_placed : Kept fun value v => v.Placed value where
  own c _ _ _ := ⟨c.value, .here _, .inl rfl⟩
  refused := by
    rintro value _ ⟨message, rfl⟩
    exact ⟨value, .here _, .inl rfl⟩
  refusedPart := by
    rintro value step part _ hpart ⟨message, rfl⟩
    exact ⟨value, .here _, .inr (.inl ⟨rfl, step, hpart⟩)⟩
  part := by
    rintro value step part v hpart ⟨host, hleads, habout⟩
    exact ⟨host, .step hpart hleads, habout⟩
  name := by
    intro members key v hkey hplaced
    obtain ⟨hpath, hvalue⟩ := hplaced.value_eq_key
    exact ⟨.obj members, hpath ▸ .here _, .inr (.inr ⟨members, key, rfl, hkey, hvalue⟩)⟩

/-- The path of a violation is followed to the place of a value. Unless an object on the way
repeats the key taken, the violation is about that value, or else about a part or a key of it. -/
theorem violation_follow {validator : Validator} {text : List Char} {root : Node}
    (hread : read text = .ok root)
    (hplaced : (validator.violations root.toValue).All (Violation.Placed root.toValue))
    (hv : v ∈ (validator.violations root.toValue).violations) :
    let place := (Place.root root).follow v.path
    place.isValue = true ∧
      (¬ (Place.root root).Repeats v.path →
        (place.node.toValue = v.value ↔ ¬ v.Strays place.node.toValue)) := by
  have hshaped : (Place.root root).node.Shaped false := shaped_of_read hread
  refine ⟨Place.isValue_follow hshaped rfl _, fun honce => ?_⟩
  obtain ⟨host, hleads, habout⟩ := hplaced v hv
  rw [Place.toValue_follow hshaped hleads honce]
  constructor
  · rintro rfl hstrays
    exact hstrays.ne rfl
  · intro hnear
    rcases habout with habout | hstrays
    · exact habout.symm
    · exact absurd hstrays hnear

/-- A schema that asks for a string under `a`. -/
def stringUnderA : Value := .obj [("properties", .obj [("a", .obj [("type", .str "string")])])]

/-- The violation of `stringUnderA` by the number one. -/
def oneUnderA : Violation :=
  ⟨some "type", "1 is not of type 'string'", [.key "a"], .obj [("type", .str "string")],
    .num (.int 1)⟩

/-- The document `{"a": 1}`. -/
def oneDocument : Node :=
  .object ⟨0, 8⟩
    [.property ⟨1, 6⟩ (.scalar ⟨1, 3⟩ (.string "a")) 4 (.scalar ⟨6, 1⟩ (.number (.int 1)))]

/-- The validator that runs, for `stringUnderA`. -/
def stringValidator : Validator := .standard stringUnderA

theorem violation_follow_one :
    read "\x7b\"a\": 1\x7d".toList = .ok oneDocument ∧
      (stringValidator.violations oneDocument.toValue).All
        (Violation.Placed oneDocument.toValue) ∧
      oneUnderA ∈ (stringValidator.violations oneDocument.toValue).violations ∧
      ((Place.root oneDocument).follow oneUnderA.path).node.toValue = oneUnderA.value := by
  have hread : read "\x7b\"a\": 1\x7d".toList = .ok oneDocument := by rfl
  have hplaced : (stringValidator.violations oneDocument.toValue).All
      (Violation.Placed oneDocument.toValue) := kept_placed.violations stringUnderA _
  have hviolations : (stringValidator.violations oneDocument.toValue).violations =
      [oneUnderA] := by rfl
  have hv : oneUnderA ∈ (stringValidator.violations oneDocument.toValue).violations := by
    rw [hviolations]
    exact List.mem_singleton_self _
  have honce : ¬ (Place.root oneDocument).Repeats oneUnderA.path := by
    rintro ⟨before, name, after, hpath, hcount⟩
    cases before with
    | nil =>
        cases hpath
        revert hcount
        decide
    | cons step before => simp [oneUnderA] at hpath
  refine ⟨hread, hplaced, hv, ((violation_follow hread hplaced hv).2 honce).mpr ?_⟩
  rintro (⟨hnone, -⟩ | ⟨members, key, -, -, hkey⟩)
  · cases hnone
  · cases hkey

/-! ## An object that repeats a key -/

/-- The document `{"a": "s", "a": 1}`. -/
def twiceDocument : Node :=
  .object ⟨0, 18⟩
    [.property ⟨1, 8⟩ (.scalar ⟨1, 3⟩ (.string "a")) 4 (.scalar ⟨6, 3⟩ (.string "s")),
      .property ⟨11, 6⟩ (.scalar ⟨11, 3⟩ (.string "a")) 14 (.scalar ⟨16, 1⟩ (.number (.int 1)))]

theorem not_forall_toValue_follow :
    ¬ ∀ (validator : Validator) (text : List Char) (root : Node) (v : Violation),
      read text = .ok root →
        (validator.violations root.toValue).All (Violation.Placed root.toValue) →
        v ∈ (validator.violations root.toValue).violations →
        ((Place.root root).follow v.path).isValue = true ∧
          ((Place.root root).follow v.path).node.toValue = v.value := by
  intro hall
  have hread : read "\x7b\"a\": \"s\", \"a\": 1\x7d".toList = .ok twiceDocument := by rfl
  have hviolations : (stringValidator.violations twiceDocument.toValue).violations =
      [oneUnderA] := by rfl
  have hv : oneUnderA ∈ (stringValidator.violations twiceDocument.toValue).violations := by
    rw [hviolations]
    exact List.mem_singleton_self _
  have heq := (hall stringValidator _ _ _ hread (kept_placed.violations stringUnderA _) hv).2
  cases heq

end ModAtlas.Validation
