import ModAtlas.Document.Place
import ModAtlas.Proofs.Json.Merging
import ModAtlas.Schema.Correction

/-!
# Insertions into schemas

An insertion writes a value under a name into the object that a path of keys leads to, and does
nothing where the path leads to no object. It is seen along the paths through its position and
along no others: all that lies apart is as before, and the objects above the position keep their
keys in order. What was inserted at one position is still there after insertions apart from it, so
that inserting it again changes nothing.
-/

namespace ModAtlas.Json
open ModAtlas.Document

/-! ## Following a path through a value -/

namespace Value

/-- The part of a value that a step leads to. -/
def step? : Value → PathStep → Option Value
  | .obj members, .key name => Members.get? members name
  | .arr items, .index i => if i < 0 then none else items[i.toNat]?
  | _, _ => none

/-- The part of a value that a path leads to. -/
def follow? : Value → List PathStep → Option Value
  | v, [] => some v
  | v, step :: path => (v.step? step).bind (·.follow? path)

theorem follow?_key (v : Value) (name : String) (path : List PathStep) :
    v.follow? (.key name :: path) = (v.get? name).bind (·.follow? path) := by
  cases v <;> rfl

theorem follow?_append (v : Value) (p q : List PathStep) :
    v.follow? (p ++ q) = (v.follow? p).bind (·.follow? q) := by
  induction p generalizing v with
  | nil => rfl
  | cons step p ih =>
      rw [List.cons_append, follow?, follow?]
      cases v.step? step with
      | none => rfl
      | some part => exact ih part

end Value

/-! ## Members -/

namespace Members
variable {key : String} {value : Value} {members : Members}

theorem keys_put : members.keys <+: (put key value members).keys := by
  induction members with
  | nil => exact List.nil_prefix
  | cons m members ih =>
      rw [put]
      split
      · rename_i hkey
        subst hkey
        exact List.prefix_rfl
      · exact (List.prefix_cons_inj m.1).mpr ih

/-- What is under a key already can be written there again. -/
theorem put_eq_self (h : members.get? key = some value) : put key value members = members := by
  induction members with
  | nil => cases h
  | cons m members ih =>
      obtain ⟨first, v⟩ := m
      rw [get?_cons] at h
      rw [put]
      split
      · rename_i hfirst
        rw [if_pos hfirst.symm] at h
        rw [Option.some.inj h]
      · rename_i hfirst
        rw [if_neg (Ne.symm hfirst)] at h
        rw [ih h]

theorem put_put (value' : Value) :
    put key value' (put key value members) = put key value' members := by
  induction members with
  | nil => simp [put]
  | cons m members ih =>
      rw [put, put]
      split
      · rename_i hfirst
        rw [put, if_pos hfirst]
      · rename_i hfirst
        rw [put, if_neg hfirst, ih]

end Members
end ModAtlas.Json

namespace ModAtlas.Schema
open ModAtlas.Document ModAtlas.Json

section ChangeMember
variable {f g : Value → Value} {key : String} {members : Members}

theorem get?_changeMember (name : String) : Members.get? (changeMember key f members) name =
    if name = key then (Members.get? members key).map f else Members.get? members name := by
  induction members with
  | nil => split <;> rfl
  | cons m members ih =>
      obtain ⟨first, v⟩ := m
      rw [changeMember, Members.get?_cons, Members.get?_cons]
      split
      · rename_i hfirst
        subst hfirst
        rw [Members.get?_cons, if_pos rfl, Option.map_some]
        split <;> rfl
      · rename_i hfirst
        rw [Members.get?_cons, ih, if_neg (Ne.symm hfirst)]
        split
        · rename_i hname
          rw [if_neg (hname ▸ hfirst)]
        · rfl

theorem keys_changeMember : Members.keys (changeMember key f members) = Members.keys members := by
  induction members with
  | nil => rfl
  | cons m members ih =>
      rw [changeMember]
      split
      · rfl
      · exact congrArg (m.1 :: ·) ih

theorem changeMember_congr (h : ∀ v, Members.get? members key = some v → f v = g v) :
    changeMember key f members = changeMember key g members := by
  induction members with
  | nil => rfl
  | cons m members ih =>
      obtain ⟨first, v⟩ := m
      rw [changeMember, changeMember]
      split
      · rename_i hfirst
        rw [h v (by rw [Members.get?_cons, if_pos hfirst.symm])]
      · rename_i hfirst
        rw [ih fun u hu => h u (by rw [Members.get?_cons, if_neg (Ne.symm hfirst), hu])]

theorem changeMember_id : changeMember key id members = members := by
  induction members with
  | nil => rfl
  | cons m members ih =>
      rw [changeMember, ih]
      split <;> rfl

theorem changeMember_comp :
    changeMember key (f ∘ g) members = changeMember key f (changeMember key g members) := by
  induction members with
  | nil => rfl
  | cons m members ih =>
      rw [changeMember, changeMember]
      split
      · rename_i hfirst
        rw [changeMember, if_pos hfirst]
        rfl
      · rename_i hfirst
        rw [changeMember, if_neg hfirst, ih]

/-- Changing what is under a key is writing it anew. -/
theorem changeMember_eq_put {v : Value} (h : Members.get? members key = some v) :
    changeMember key f members = Members.put key (f v) members := by
  induction members with
  | nil => cases h
  | cons m members ih =>
      obtain ⟨first, u⟩ := m
      rw [Members.get?_cons] at h
      rw [changeMember, Members.put]
      split
      · rename_i hfirst
        rw [if_pos hfirst.symm] at h
        rw [Option.some.inj h, hfirst]
      · rename_i hfirst
        rw [if_neg (Ne.symm hfirst)] at h
        rw [ih h]

end ChangeMember

/-! ## Changes below paths of keys -/

/-- The steps along keys. -/
def alongKeys (names : List String) : List PathStep := names.map .key

/-- Changes the members of the object that a path of keys leads to. -/
def changeAt : List String → (Members → Members) → Value → Value
  | [], f => changeObject f
  | key :: path, f => changeObject (changeMember key (changeAt path f))

section ChangeAt
variable {path : List String} {f g : Members → Members} {v : Value}

theorem changeAt_congr
    (h : ∀ members, v.follow? (alongKeys path) = some (.obj members) → f members = g members) :
    changeAt path f v = changeAt path g v := by
  induction path generalizing v with
  | nil =>
      cases v with
      | obj members => exact congrArg Value.obj (h members rfl)
      | _ => rfl
  | cons key path ih =>
      cases v with
      | obj members =>
          refine congrArg Value.obj (changeMember_congr fun u hu => ih fun inner hinner => ?_)
          refine h inner ?_
          rw [alongKeys, List.map_cons, Value.follow?, Value.step?, hu]
          exact hinner
      | _ => rfl

theorem changeAt_id : changeAt path id v = v := by
  induction path generalizing v with
  | nil => cases v <;> rfl
  | cons key path ih =>
      have hid : changeAt path id = id := funext fun u => ih
      cases v with
      | obj members => rw [changeAt, hid, changeObject, changeMember_id]
      | _ => rfl

theorem changeAt_eq_self
    (h : ∀ members, v.follow? (alongKeys path) = some (.obj members) → f members = members) :
    changeAt path f v = v :=
  (changeAt_congr h).trans changeAt_id

theorem changeAt_comp : changeAt path (f ∘ g) v = changeAt path f (changeAt path g v) := by
  induction path generalizing v with
  | nil => cases v <;> rfl
  | cons key path ih =>
      have hcomp : changeAt path (f ∘ g) = changeAt path f ∘ changeAt path g := funext fun u => ih
      cases v with
      | obj members => rw [changeAt, hcomp, changeObject, changeMember_comp]; rfl
      | _ => rfl

theorem changeAt_append (path : List String) (key : String) (rest : List String)
    (f : Members → Members) :
    changeAt (path ++ key :: rest) f = changeAt path (changeMember key (changeAt rest f)) := by
  induction path with
  | nil => rfl
  | cons first path ih => rw [List.cons_append, changeAt, ih, changeAt]

theorem follow?_changeAt : (changeAt path f v).follow? (alongKeys path) =
    (v.follow? (alongKeys path)).map (changeObject f) := by
  induction path generalizing v with
  | nil => rfl
  | cons key path ih =>
      cases v with
      | obj members =>
          rw [alongKeys, List.map_cons, Value.follow?, Value.follow?, changeAt, changeObject,
            Value.step?, Value.step?, get?_changeMember, if_pos rfl]
          cases Members.get? members key with
          | none => rfl
          | some u => exact ih
      | _ => rfl

end ChangeAt

/-! ## What edits leave as it was -/

/-- What stands somewhere is the same, or is an object with more keys behind the ones it had. -/
inductive Grown : Option Value → Option Value → Prop
  | same (part : Option Value) : Grown part part
  | object {members members' : Members} (keys : members.keys <+: members'.keys) :
      Grown (some (.obj members)) (some (.obj members'))

theorem Grown.trans {a b c : Option Value} (h : Grown a b) (h' : Grown b c) : Grown a c := by
  cases h with
  | same => exact h'
  | object keys =>
      cases h' with
      | same => exact .object keys
      | object keys' => exact .object (keys.trans keys')

theorem Grown.exists_object {members : Members} {part : Option Value}
    (h : Grown (some (.obj members)) part) :
    ∃ members', part = some (.obj members') ∧ Members.keys members <+: Members.keys members' := by
  cases h with
  | same => exact ⟨members, rfl, List.prefix_rfl⟩
  | object keys => exact ⟨_, rfl, keys⟩

/-- None of two paths leads through the other. -/
def Apart (p q : List PathStep) : Prop := ¬ p <+: q ∧ ¬ q <+: p

instance (p q : List PathStep) : Decidable (Apart p q) := inferInstanceAs (Decidable (_ ∧ _))

theorem Apart.symm {p q : List PathStep} (h : Apart p q) : Apart q p := ⟨h.2, h.1⟩

/-- A value becomes another one by edits at positions: what lies apart from all of them is as
before, and what does not lie at or below one of them has at most grown. -/
structure Edits (W : List PathStep → Prop) (v u : Value) : Prop where
  apart : ∀ q, (∀ w, W w → Apart w q) → u.follow? q = v.follow? q
  grown : ∀ q, (∀ w, W w → ¬ w <+: q) → Grown (v.follow? q) (u.follow? q)

namespace Edits
variable {W W' : List PathStep → Prop} {v u t : Value}

theorem refl (W : List PathStep → Prop) (v : Value) : Edits W v v :=
  ⟨fun _ _ => rfl, fun _ _ => .same _⟩

theorem trans (h : Edits W v u) (h' : Edits W u t) : Edits W v t :=
  ⟨fun q hq => (h'.apart q hq).trans (h.apart q hq),
    fun q hq => (h.grown q hq).trans (h'.grown q hq)⟩

theorem mono (h : Edits W v u) (hW : ∀ w, W w → W' w) : Edits W' v u :=
  ⟨fun q hq => h.apart q fun w hw => hq w (hW w hw),
    fun q hq => h.grown q fun w hw => hq w (hW w hw)⟩

/-- A path leads to an object after edits that are not at or above it exactly if it did before. -/
theorem object_iff (h : Edits W v u) {q : List PathStep} (hq : ∀ w, W w → ¬ w <+: q) :
    (∃ members, u.follow? q = some (.obj members)) ↔
      ∃ members, v.follow? q = some (.obj members) := by
  have hgrown := h.grown q hq
  generalize v.follow? q = a at hgrown ⊢
  generalize u.follow? q = b at hgrown ⊢
  cases hgrown with
  | same => exact Iff.rfl
  | object => simp

end Edits

/-! ## Insertions -/

/-- A value to be written under a name in the object that a path of keys leads to. -/
structure Insertion where
  holder : List String
  name : String
  value : Value

namespace Insertion
variable (i : Insertion) (v : Value)

/-- Where the value is written. -/
def position : List PathStep := alongKeys (i.holder ++ [i.name])

/-- Writes the value. -/
def apply : Value → Value := changeAt i.holder (Members.put i.name i.value)

/-- There is an object to write the value into. -/
def Applies : Prop := ∃ members, v.follow? (alongKeys i.holder) = some (.obj members)

/-- The value stands where it is to be written. -/
def Settled : Prop :=
  ∀ members, v.follow? (alongKeys i.holder) = some (.obj members) →
    Members.get? members i.name = some i.value

variable {i v}

theorem position_eq : i.position = alongKeys i.holder ++ [.key i.name] := List.map_append

theorem holder_prefix : alongKeys i.holder <+: i.position := ⟨_, position_eq.symm⟩

theorem follow?_position {members : Members}
    (h : v.follow? (alongKeys i.holder) = some (.obj members)) :
    v.follow? i.position = Members.get? members i.name := by
  rw [position_eq, Value.follow?_append, h, Option.bind_some, Value.follow?, Value.step?]
  cases Members.get? members i.name <;> rfl

/-- Where only what is under one key changes, the edits are below that key. -/
theorem edits_member {key : String} {w : List PathStep} {members members' : Members}
    (keys : members.keys <+: members'.keys)
    (others : ∀ j, j ≠ key → Members.get? members' j = Members.get? members j)
    (apart : ∀ q, Apart w q →
      (Value.obj members').follow? (.key key :: q) = (Value.obj members).follow? (.key key :: q))
    (grown : ∀ q, ¬ w <+: q →
      Grown ((Value.obj members).follow? (.key key :: q))
        ((Value.obj members').follow? (.key key :: q))) :
    Edits (· = .key key :: w) (.obj members) (.obj members') := by
  have hother {j : String} (hj : j ≠ key) (q : List PathStep) :
      (Value.obj members').follow? (.key j :: q) = (Value.obj members).follow? (.key j :: q) := by
    rw [Value.follow?, Value.follow?, Value.step?, Value.step?, others j hj]
  constructor
  · intro q hq
    have hapart := hq _ rfl
    cases q with
    | nil => exact absurd List.nil_prefix hapart.2
    | cons step q =>
        cases step with
        | index j => rfl
        | key j =>
            by_cases hj : j = key
            · subst hj
              exact apart q ((and_congr (List.prefix_cons_inj _).not
                (List.prefix_cons_inj _).not).mp hapart)
            · exact hother hj q
  · intro q hq
    have hbelow := hq _ rfl
    cases q with
    | nil => exact .object keys
    | cons step q =>
        cases step with
        | index j => exact .same _
        | key j =>
            by_cases hj : j = key
            · subst hj
              exact grown q ((List.prefix_cons_inj _).not.mp hbelow)
            · exact hother hj q ▸ .same _

/-- Writing a value is an edit where it is written. -/
theorem edits_put (path : List String) (name : String) (value v : Value) :
    Edits (· = alongKeys (path ++ [name])) v (changeAt path (Members.put name value) v) := by
  induction path generalizing v with
  | nil =>
      cases v with
      | obj members =>
          refine edits_member Members.keys_put (fun j hj => ?_) (fun q hq => ?_) fun q hq => ?_
          · rw [Members.get?_put, if_neg hj]
          · exact absurd List.nil_prefix hq.1
          · exact absurd List.nil_prefix hq
      | _ => exact .refl _ _
  | cons key path ih =>
      cases v with
      | obj members =>
          have hbelow (f : Value → Value) (q : List PathStep) :
              (Value.obj (changeMember key f members)).follow? (.key key :: q) =
                (Members.get? members key).bind fun u => (f u).follow? q := by
            rw [Value.follow?, Value.step?, get?_changeMember, if_pos rfl, Option.bind_map]
            rfl
          refine edits_member ?_ (fun j hj => ?_) (fun q hq => ?_) fun q hq => ?_
          · exact (keys_changeMember ..).symm ▸ List.prefix_rfl
          · rw [get?_changeMember, if_neg hj]
          · rw [hbelow, Value.follow?, Value.step?]
            cases Members.get? members key with
            | none => rfl
            | some u => exact (ih u).apart q fun w hw => hw ▸ hq
          · rw [hbelow, Value.follow?, Value.step?]
            cases Members.get? members key with
            | none => exact .same _
            | some u => exact (ih u).grown q fun w hw => hw ▸ hq
      | _ => exact .refl _ _

theorem apply_of_not_applies (h : ¬ i.Applies v) : i.apply v = v :=
  changeAt_eq_self fun members hmembers => absurd ⟨members, hmembers⟩ h

/-- An insertion is an edit at its position if there is an object for it, and none otherwise. -/
theorem edits_apply (i : Insertion) (v : Value) :
    Edits (fun w => i.Applies v ∧ w = i.position) v (i.apply v) := by
  by_cases h : i.Applies v
  · exact (edits_put i.holder i.name i.value v).mono fun w hw => ⟨h, hw⟩
  · rw [apply_of_not_applies h]
    exact .refl _ _

/-- Whether there is an object for an insertion does not depend on edits apart from it. -/
theorem applies_edits_iff {W : List PathStep → Prop} {u : Value} (h : Edits W v u)
    (hapart : ∀ w, W w → Apart w i.position) : i.Applies u ↔ i.Applies v :=
  h.object_iff fun w hw hbelow => (hapart w hw).1 (hbelow.trans holder_prefix)

/-- What is settled stands at its position. -/
theorem Settled.follow? (h : i.Settled v) (happlies : i.Applies v) :
    v.follow? i.position = some i.value := by
  obtain ⟨members, hmembers⟩ := happlies
  rw [follow?_position hmembers, h members hmembers]

/-- What is settled need not be written. -/
theorem Settled.apply (h : i.Settled v) : i.apply v = v :=
  changeAt_eq_self fun members hmembers => Members.put_eq_self (h members hmembers)

theorem settled_apply (i : Insertion) (v : Value) : i.Settled (i.apply v) := by
  intro members hmembers
  rw [apply, follow?_changeAt] at hmembers
  obtain ⟨u, -, hu⟩ := Option.map_eq_some_iff.mp hmembers
  cases u with
  | obj before =>
      obtain rfl : Members.put i.name i.value before = members := Value.obj.inj hu
      rw [Members.get?_put, if_pos rfl]
  | _ => cases hu

theorem applies_apply_iff : i.Applies (i.apply v) ↔ i.Applies v :=
  (i.edits_apply v).object_iff fun w hw hbelow => by
    rw [hw.2, position_eq] at hbelow
    have hlength := hbelow.length_le
    rw [List.length_append, List.length_singleton] at hlength
    omega

/-- What is settled stays so after edits apart from it. -/
theorem Settled.edits {W : List PathStep → Prop} {u : Value} (h : i.Settled v)
    (hedits : Edits W v u) (hapart : ∀ w, W w → Apart w i.position) : i.Settled u := by
  intro members hmembers
  obtain ⟨before, hbefore⟩ := (applies_edits_iff hedits hapart).mp ⟨members, hmembers⟩
  rw [← follow?_position hmembers, hedits.apart _ hapart, follow?_position hbefore]
  exact h before hbefore

end Insertion

/-! ## Rows of insertions -/

/-- All insertions, one after the other. -/
def applyAll (is : List Insertion) (v : Value) : Value := is.foldl (fun v i => i.apply v) v

/-- No two insertions are made along one path. -/
def PairwiseApart (is : List Insertion) : Prop :=
  is.Pairwise fun i j => Apart i.position j.position

/-- Some insertion writes at a position of a value. -/
def Inserts (is : List Insertion) (v : Value) (w : List PathStep) : Prop :=
  ∃ i ∈ is, i.Applies v ∧ w = i.position

section ApplyAll
variable {is : List Insertion} {v : Value}

theorem edits_applyAll (h : PairwiseApart is) (v : Value) :
    Edits (Inserts is v) v (applyAll is v) := by
  induction is generalizing v with
  | nil => exact .refl _ _
  | cons i is ih =>
      obtain ⟨hfirst, hrest⟩ := List.pairwise_cons.mp h
      have hedits := i.edits_apply v
      refine (hedits.mono ?_).trans ((ih hrest (i.apply v)).mono ?_)
      · rintro w ⟨happlies, hw⟩
        exact ⟨i, List.mem_cons_self, happlies, hw⟩
      · rintro w ⟨j, hj, happlies, hw⟩
        refine ⟨j, List.mem_cons_of_mem i hj, ?_, hw⟩
        refine (Insertion.applies_edits_iff hedits ?_).mp happlies
        rintro w ⟨-, rfl⟩
        exact hfirst j hj

/-- Each insertion is settled after all of them. -/
theorem settled_applyAll (h : PairwiseApart is) : ∀ i ∈ is, i.Settled (applyAll is v) := by
  induction is generalizing v with
  | nil => exact nofun
  | cons i is ih =>
      obtain ⟨hfirst, hrest⟩ := List.pairwise_cons.mp h
      intro j hj
      rcases List.mem_cons.mp hj with rfl | hj
      · refine (j.settled_apply v).edits (edits_applyAll hrest _) ?_
        rintro w ⟨k, hk, -, rfl⟩
        exact (hfirst k hk).symm
      · exact ih hrest j hj

theorem applyAll_of_settled (h : ∀ i ∈ is, i.Settled v) : applyAll is v = v := by
  induction is with
  | nil => rfl
  | cons i is ih =>
      obtain ⟨hi, his⟩ := List.forall_mem_cons.mp h
      rw [applyAll, List.foldl_cons, hi.apply]
      exact ih his

end ApplyAll
end ModAtlas.Schema
