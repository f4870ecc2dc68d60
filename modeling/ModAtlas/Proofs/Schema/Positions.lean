import Mathlib.Algebra.Group.Action.Defs
import Mathlib.Algebra.GroupWithZero.Nat
import Mathlib.Algebra.Order.BigOperators.Group.List
import Mathlib.Algebra.Order.Group.Nat
import ModAtlas.Schema.Pointer

/-!
# Positions inside a schema

The values inside a value, each with the pointer that leads to it from a given one. There are as
many as the value counts, and whatever a pointer resolves to is among them. The pointers into a
schema start at the schema or at the target of one of its references, so that there are no more of
them than the square of its count.
-/

namespace ModAtlas.Schema
open ModAtlas.Json

/-- The values directly inside a value that stands at a pointer. -/
def parts (pointer : String) : Value → List (String × Value)
  | .arr items => items.zipIdx.map fun p => (Pointer.item pointer p.2, p.1)
  | .obj members => members.map fun p => (Pointer.child pointer p.1, p.2)
  | _ => []

mutual

/-- A value that stands at a pointer and all values inside it, each with its pointer. -/
def positions (pointer : String) : Value → List (String × Value)
  | .arr items => (pointer, .arr items) :: itemPositions pointer 0 items
  | .obj members => (pointer, .obj members) :: memberPositions pointer members
  | v => [(pointer, v)]

/-- The positions in items, counted from an index. -/
def itemPositions (pointer : String) : Nat → List Value → List (String × Value)
  | _, [] => []
  | index, v :: rest =>
    positions (Pointer.item pointer index) v ++ itemPositions pointer (index + 1) rest

/-- The positions in members. -/
def memberPositions (pointer : String) : Members → List (String × Value)
  | [] => []
  | (key, v) :: rest => positions (Pointer.child pointer key) v ++ memberPositions pointer rest

end

theorem itemPositions_eq (pointer : String) (index : Nat) (items : List Value) :
    itemPositions pointer index items =
      (items.zipIdx index).flatMap fun p => positions (Pointer.item pointer p.2) p.1 := by
  induction items generalizing index with
  | nil => rfl
  | cons v rest ih => simp [itemPositions, ih]

theorem memberPositions_eq (pointer : String) (members : Members) :
    memberPositions pointer members =
      members.flatMap fun p => positions (Pointer.child pointer p.1) p.2 := by
  induction members with
  | nil => rfl
  | cons p rest ih => simp [memberPositions, ih]

/-- The positions of a value are its own and those of its parts. -/
theorem positions_eq (pointer : String) (v : Value) :
    positions pointer v = (pointer, v) :: (parts pointer v).flatMap fun p => positions p.1 p.2 := by
  cases v with
  | arr items => simp [positions, parts, itemPositions_eq, List.flatMap_map]
  | obj members => simp [positions, parts, memberPositions_eq, List.flatMap_map]
  | _ => rfl

theorem sizeOf_lt_of_mem_parts {pointer : String} {v : Value} {p : String × Value}
    (h : p ∈ parts pointer v) : sizeOf p.2 < sizeOf v := by
  cases v with
  | arr items =>
      obtain ⟨⟨w, i⟩, hw, rfl⟩ := List.mem_map.mp h
      have := List.sizeOf_lt_of_mem (List.fst_mem_of_mem_zipIdx hw)
      simp only [Value.arr.sizeOf_spec] at this ⊢
      omega
  | obj members =>
      obtain ⟨⟨key, w⟩, hw, rfl⟩ := List.mem_map.mp h
      have := List.sizeOf_lt_of_mem hw
      simp only [Prod.mk.sizeOf_spec] at this
      simp only [Value.obj.sizeOf_spec]
      omega
  | _ => cases h

/-- What holds of a position whenever it holds of its parts holds of all positions. -/
theorem positions_induction {motive : String → Value → Prop}
    (step : ∀ pointer v, (∀ p ∈ parts pointer v, motive p.1 p.2) → motive pointer v)
    (pointer : String) (v : Value) : motive pointer v :=
  step pointer v fun p _ => positions_induction step p.1 p.2
termination_by sizeOf v
decreasing_by exact sizeOf_lt_of_mem_parts ‹_›

section Membership
variable {pointer : String} {v : Value} {p q : String × Value}

theorem mem_positions_iff : p ∈ positions pointer v ↔
    p = (pointer, v) ∨ ∃ part ∈ parts pointer v, p ∈ positions part.1 part.2 := by
  rw [positions_eq, List.mem_cons, List.mem_flatMap]

theorem self_mem_positions (pointer : String) (v : Value) : (pointer, v) ∈ positions pointer v :=
  mem_positions_iff.mpr (.inl rfl)

theorem positions_trans (hp : p ∈ positions pointer v) (hq : q ∈ positions p.1 p.2) :
    q ∈ positions pointer v := by
  induction pointer, v using positions_induction with
  | step pointer v ih =>
      rcases mem_positions_iff.mp hp with rfl | ⟨part, hpart, hin⟩
      · exact hq
      · exact mem_positions_iff.mpr (.inr ⟨part, hpart, ih part hpart hin⟩)

theorem mem_positions_of_mem_parts (hp : p ∈ positions pointer v) (hq : q ∈ parts p.1 p.2) :
    q ∈ positions pointer v :=
  positions_trans hp (mem_positions_iff.mpr (.inr ⟨q, hq, self_mem_positions q.1 q.2⟩))

theorem mem_parts_of_mem {members : Members} {key : String} (h : (key, v) ∈ members) :
    (Pointer.child pointer key, v) ∈ parts pointer (.obj members) :=
  List.mem_map.mpr ⟨(key, v), h, rfl⟩

theorem mem_parts_of_get? {members : Members} {key : String}
    (h : Members.get? members key = some v) :
    (Pointer.child pointer key, v) ∈ parts pointer (.obj members) := by
  obtain ⟨before, after, rfl, -⟩ := List.lookup_eq_some_iff.mp h
  exact mem_parts_of_mem (by simp)

theorem mem_parts_of_getElem? {items : List Value} {index : Nat} (h : items[index]? = some v) :
    (Pointer.item pointer index, v) ∈ parts pointer (.arr items) :=
  List.mem_map.mpr ⟨(v, index), List.mem_zipIdx_iff_getElem?.mpr h, rfl⟩

end Membership

theorem count_eq (pointer : String) (v : Value) :
    v.count = ((parts pointer v).map fun p => p.2.count).sum + 1 := by
  have hitems (items : List Value) :
      Value.countItems items = (items.map Value.count).sum := by
    induction items with
    | nil => rfl
    | cons w rest ih => simp [Value.countItems, ih]
  have hmembers (members : Members) :
      Value.countMembers members = (members.map fun p => p.2.count).sum := by
    induction members with
    | nil => rfl
    | cons p rest ih => simp [Value.countMembers, ih]
  cases v with
  | arr items =>
      have hfst : (items.zipIdx.map fun p => p.1.count) = items.map Value.count := by
        conv_rhs => rw [← List.zipIdx_map_fst 0 items, List.map_map]
        rfl
      simp [Value.count, parts, hitems, List.map_map, Function.comp_def, hfst]
  | obj members => simp [Value.count, parts, hmembers, List.map_map, Function.comp_def]
  | _ => rfl

/-- There are as many positions as the value counts. -/
theorem length_positions (pointer : String) (v : Value) :
    (positions pointer v).length = v.count := by
  induction pointer, v using positions_induction with
  | step pointer v ih =>
      rw [positions_eq, List.length_cons, List.length_flatMap, count_eq pointer v,
        List.map_congr_left ih]

/-- A value inside another one counts no more. -/
theorem count_le_of_mem_positions {pointer : String} {v : Value} {p : String × Value}
    (h : p ∈ positions pointer v) : p.2.count ≤ v.count := by
  induction pointer, v using positions_induction with
  | step pointer v ih =>
      rcases mem_positions_iff.mp h with rfl | ⟨part, hpart, hin⟩
      · exact Nat.le_refl _
      · rw [count_eq pointer v]
        have hle := List.single_le_sum (fun _ _ => Nat.zero_le _) _
          (List.mem_map_of_mem (f := fun p => p.2.count) hpart)
        exact Nat.le_succ_of_le (Nat.le_trans (ih part hpart hin) hle)

/-- The values do not depend on where they stand. -/
theorem exists_mem_positions {pointer : String} {v : Value} {p : String × Value}
    (h : p ∈ positions pointer v) (pointer' : String) :
    ∃ q, (q, p.2) ∈ positions pointer' v := by
  induction pointer, v using positions_induction generalizing pointer' with
  | step pointer v ih =>
      rcases mem_positions_iff.mp h with rfl | ⟨part, hpart, hin⟩
      · exact ⟨pointer', self_mem_positions pointer' v⟩
      · have hpart' : ∃ q, (q, part.2) ∈ parts pointer' v := by
          cases v with
          | arr items =>
              obtain ⟨⟨w, i⟩, hw, rfl⟩ := List.mem_map.mp hpart
              exact ⟨_, List.mem_map.mpr ⟨(w, i), hw, rfl⟩⟩
          | obj members =>
              obtain ⟨⟨key, w⟩, hw, rfl⟩ := List.mem_map.mp hpart
              exact ⟨_, mem_parts_of_mem hw⟩
          | _ => cases hpart
        obtain ⟨q', hq'⟩ := hpart'
        obtain ⟨q, hq⟩ := ih part hpart hin q'
        exact ⟨q, mem_positions_iff.mpr (.inr ⟨_, hq', hq⟩)⟩

/-! ## What pointers resolve to -/

theorem mem_parts_of_enter {token : String} {v w : Value}
    (h : Pointer.enter token v = .ok (some w)) (pointer : String) :
    ∃ q, (q, w) ∈ parts pointer v := by
  unfold Pointer.enter at h
  split at h
  · exact ⟨_, mem_parts_of_get? (by simpa using h)⟩
  · split at h
    · split at h
      · cases h
      · exact ⟨_, mem_parts_of_getElem? (by simpa using h)⟩
    · simp at h
  · simp at h

theorem mem_positions_of_follow {tokens : List String} {v w : Value}
    (h : Pointer.follow tokens v = .ok (some w)) (pointer : String) :
    ∃ q, (q, w) ∈ positions pointer v := by
  induction tokens generalizing v pointer with
  | nil =>
      obtain rfl : v = w := by simpa [Pointer.follow] using h
      exact ⟨pointer, self_mem_positions pointer v⟩
  | cons token tokens ih =>
      rw [Pointer.follow] at h
      cases henter : Pointer.enter token v with
      | error e => simp [henter, bind, Except.bind] at h
      | ok found =>
          cases found with
          | none => simp [henter, bind, Except.bind] at h
          | some u =>
              obtain ⟨q', hq'⟩ := mem_parts_of_enter henter pointer
              obtain ⟨q, hq⟩ := ih (by simpa [henter, bind, Except.bind] using h) q'
              exact ⟨q, mem_positions_iff.mpr (.inr ⟨_, hq', hq⟩)⟩

/-- A pointer resolves to a value inside the one it is followed in. -/
theorem mem_positions_of_resolve {root v : Value} {target : String}
    (h : Pointer.resolve root target = .ok (some v)) (pointer : String) :
    ∃ q, (q, v) ∈ positions pointer root := by
  unfold Pointer.resolve at h
  split at h
  · obtain rfl : root = v := by simpa using h
    exact ⟨pointer, self_mem_positions pointer root⟩
  · exact mem_positions_of_follow h pointer

/-! ## Pointers into a schema -/

section Origins
variable (root : Value)

/-- Where pointers start: at the schema, or at the target of one of its references. -/
def origins : List String :=
  "" :: (positions "" root).filterMap fun p => Pointer.localTarget? p.2

/-- The positions below an origin. -/
def positionsFrom (origin : String) : List (String × Value) :=
  match Pointer.resolve root origin with
  | .ok (some v) => positions origin v
  | _ => []

/-- All positions of subschemas. -/
def allPositions : List (String × Value) := (origins root).flatMap (positionsFrom root)

variable {root}

theorem mem_positionsFrom {origin : String} {p : String × Value} :
    p ∈ positionsFrom root origin ↔
      ∃ v, Pointer.resolve root origin = .ok (some v) ∧ p ∈ positions origin v := by
  unfold positionsFrom
  split
  · rename_i v hresolve
    simp [hresolve]
  · rename_i hother
    constructor
    · intro h
      cases h
    · rintro ⟨v, hresolve, -⟩
      exact absurd hresolve (hother v)

theorem root_mem_allPositions : ("", root) ∈ allPositions root := by
  refine List.mem_flatMap.mpr ⟨"", List.mem_cons_self, mem_positionsFrom.mpr ⟨root, rfl, ?_⟩⟩
  exact self_mem_positions "" root

theorem mem_allPositions_of_mem_parts {p q : String × Value} (hp : p ∈ allPositions root)
    (hq : q ∈ parts p.1 p.2) : q ∈ allPositions root := by
  obtain ⟨origin, horigin, hp⟩ := List.mem_flatMap.mp hp
  obtain ⟨v, hresolve, hp⟩ := mem_positionsFrom.mp hp
  exact List.mem_flatMap.mpr ⟨origin, horigin,
    mem_positionsFrom.mpr ⟨v, hresolve, mem_positions_of_mem_parts hp hq⟩⟩

/-- A value at one of the positions is somewhere inside the schema. -/
theorem exists_mem_positions_root {p : String × Value} (hp : p ∈ allPositions root) :
    ∃ q, (q, p.2) ∈ positions "" root := by
  obtain ⟨origin, -, hp⟩ := List.mem_flatMap.mp hp
  obtain ⟨v, hresolve, hp⟩ := mem_positionsFrom.mp hp
  obtain ⟨q', hv⟩ := mem_positions_of_resolve hresolve ""
  obtain ⟨q, hq⟩ := exists_mem_positions hp q'
  exact ⟨q, positions_trans hv hq⟩

theorem length_origins_le : (origins root).length ≤ root.count + 1 := by
  rw [origins, List.length_cons, ← length_positions "" root]
  exact Nat.succ_le_succ (List.length_filterMap_le _ _)

theorem length_allPositions_le :
    (allPositions root).length ≤ (root.count + 1) * (root.count + 1) := by
  have hfrom (origin : String) : (positionsFrom root origin).length ≤ root.count + 1 := by
    unfold positionsFrom
    split
    · rename_i v hresolve
      obtain ⟨q, hv⟩ := mem_positions_of_resolve hresolve ""
      rw [length_positions]
      exact Nat.le_succ_of_le (count_le_of_mem_positions hv)
    · exact Nat.zero_le _
  calc (allPositions root).length
      = ((origins root).map fun origin => (positionsFrom root origin).length).sum := by
        rw [allPositions, List.length_flatMap]
    _ ≤ ((origins root).map fun origin => (positionsFrom root origin).length).length •
          (root.count + 1) := by
        apply List.sum_le_card_nsmul
        intro n hn
        obtain ⟨origin, -, rfl⟩ := List.mem_map.mp hn
        exact hfrom origin
    _ ≤ (root.count + 1) * (root.count + 1) := by
        rw [List.length_map, smul_eq_mul]
        exact Nat.mul_le_mul_right _ length_origins_le

end Origins
end ModAtlas.Schema
