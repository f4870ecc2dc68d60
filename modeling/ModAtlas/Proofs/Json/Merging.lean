import Mathlib.Data.List.Induction
import Mathlib.Data.List.Nodup
import ModAtlas.Json.Value

/-!
# Repeated keys

Members may repeat a key. Merged members have each key once, at the place where it was first
written and with the value that was written last. Writing members one after the other merges them.
-/

namespace ModAtlas.Json

theorem eraseDups_concat (keys : List String) (key : String) :
    (keys ++ [key]).eraseDups =
      if key ∈ keys then keys.eraseDups else keys.eraseDups ++ [key] := by
  rw [List.eraseDups_append]
  by_cases hkey : key ∈ keys
  · simp [List.removeAll, hkey]
  · simp [List.removeAll, hkey, List.eraseDups_cons]

theorem nodup_eraseDups (keys : List String) : keys.eraseDups.Nodup := by
  induction keys using List.reverseRecOn with
  | nil => exact .nil
  | append_singleton keys key ih =>
      rw [eraseDups_concat]
      split
      · exact ih
      · rename_i hkey
        have hfresh : key ∉ keys.eraseDups := by rwa [List.mem_eraseDups]
        rw [← List.concat_eq_append]
        exact List.Nodup.concat hfresh ih

namespace Members
variable {keys : List String} {key : String} {value : Value}

/-! ## Looking up a key -/

theorem mem_of_get? {members : Members} (h : members.get? key = some value) :
    (key, value) ∈ members := by
  obtain ⟨before, after, rfl, -⟩ := List.lookup_eq_some_iff.mp h
  simp

theorem has_eq_false {members : Members} (h : members.get? key = none) :
    members.has key = false := by
  rw [has, List.any_eq_false]
  intro p hp hkey
  have := List.lookup_eq_none_iff.mp h p hp
  simp_all

/-! ## Merged members -/

/-- The members with given keys whose values are looked up. -/
def select (value? : String → Option Value) (keys : List String) : Members :=
  keys.filterMap fun key => (value? key).map (key, ·)

theorem mem_select {f : String → Option Value} :
    (key, value) ∈ select f keys ↔ key ∈ keys ∧ f key = some value := by
  simp [select, List.mem_filterMap, and_comm]

theorem select_congr {f g : String → Option Value} (h : ∀ k ∈ keys, f k = g k) :
    select f keys = select g keys := by
  induction keys with
  | nil => rfl
  | cons k keys ih =>
      have hrest := ih fun j hj => h j (List.mem_cons_of_mem _ hj)
      simp only [select] at hrest
      simp only [select, List.filterMap_cons, h k List.mem_cons_self, hrest]

theorem put_select_of_notMem {f : String → Option Value} (hkey : key ∉ keys) :
    put key value (select f keys) = select f keys ++ [(key, value)] := by
  induction keys with
  | nil => rfl
  | cons k keys ih =>
      obtain ⟨hne, hrest⟩ : key ≠ k ∧ key ∉ keys := by simpa using hkey
      cases hk : f k with
      | none => simpa [select, hk] using ih hrest
      | some v => simpa [select, hk, put, Ne.symm hne] using ih hrest

/-- Writing under a key that is there changes its value alone. -/
theorem put_select_of_mem {f : String → Option Value} (hnodup : keys.Nodup) (hkey : key ∈ keys)
    (hvalue : ∀ k ∈ keys, (f k).isSome) :
    put key value (select f keys) = select (fun k => if k = key then some value else f k) keys := by
  induction keys with
  | nil => cases hkey
  | cons k keys ih =>
      obtain ⟨hfresh, hnodup⟩ := List.nodup_cons.mp hnodup
      obtain ⟨v, hv⟩ := Option.isSome_iff_exists.mp (hvalue k List.mem_cons_self)
      by_cases hk : k = key
      · subst hk
        have hrest : select f keys = select (fun j => if j = k then some value else f j) keys := by
          apply select_congr
          intro j hj
          rw [if_neg]
          rintro rfl
          exact hfresh hj
        simpa [select, hv, put] using hrest
      · have hmem : key ∈ keys := by
          rcases List.mem_cons.mp hkey with rfl | h
          · exact absurd rfl hk
          · exact h
        simpa [select, hv, put, hk] using
          ih hnodup hmem fun j hj => hvalue j (List.mem_cons_of_mem _ hj)

/-- The value that was written last under a key. -/
def last? (pairs : Members) (key : String) : Option Value := pairs.reverse.lookup key

/-- Each key once, at its first place and with its last value. -/
def merge (pairs : Members) : Members := select pairs.last? pairs.keys.eraseDups

theorem last?_concat (pairs : Members) (k : String) :
    last? (pairs ++ [(key, value)]) k = if k = key then some value else pairs.last? k := by
  have hbeq : (k == key) = decide (k = key) := rfl
  by_cases hk : k = key <;> simp [last?, List.lookup_cons, hbeq, hk]

theorem isSome_last? {pairs : Members} (hkey : key ∈ pairs.keys) : (pairs.last? key).isSome := by
  induction pairs using List.reverseRecOn with
  | nil => cases hkey
  | append_singleton pairs pair ih =>
      rw [last?_concat]
      split
      · rfl
      · rename_i hne
        have hmem : key ∈ keys pairs := by simpa [keys, hne] using hkey
        exact ih hmem

/-- Merging members loses no key. -/
theorem mem_keys_merge {pairs : Members} : key ∈ (merge pairs).keys ↔ key ∈ pairs.keys := by
  rw [keys, List.mem_map]
  constructor
  · rintro ⟨⟨k, v⟩, hmem, rfl⟩
    exact List.mem_eraseDups.mp (mem_select.mp hmem).1
  · intro hkey
    obtain ⟨v, hv⟩ := Option.isSome_iff_exists.mp (isSome_last? hkey)
    exact ⟨(key, v), mem_select.mpr ⟨List.mem_eraseDups.mpr hkey, hv⟩, rfl⟩

theorem get?_cons (first : String) (v : Value) (rest : Members) (k : String) :
    get? ((first, v) :: rest) k = if k = first then some v else rest.get? k := by
  have hbeq : (k == first) = decide (k = first) := rfl
  by_cases hk : k = first <;> simp [get?, List.lookup_cons, hbeq, hk]

/-- When no key is repeated each member is found under its key. -/
theorem get?_of_mem {members : Members} (hnodup : members.keys.Nodup)
    (hmem : (key, value) ∈ members) : members.get? key = some value := by
  induction members with
  | nil => cases hmem
  | cons first rest ih =>
      obtain ⟨hfresh, hrest⟩ := List.nodup_cons.mp hnodup
      rw [get?_cons]
      rcases List.mem_cons.mp hmem with rfl | hin
      · exact if_pos rfl
      · rw [if_neg, ih hrest hin]
        rintro rfl
        exact hfresh (List.mem_map.mpr ⟨_, hin, rfl⟩)

theorem get?_put (members : Members) (k : String) :
    (put key value members).get? k = if k = key then some value else members.get? k := by
  induction members with
  | nil => exact get?_cons key value [] k
  | cons m members ih =>
      obtain ⟨first, v⟩ := m
      rw [put]
      split
      · rename_i hfirst
        subst hfirst
        rw [get?_cons, get?_cons]
        split <;> rfl
      · rename_i hfirst
        rw [get?_cons, get?_cons, ih]
        split
        · rename_i hk
          rw [if_neg (hk ▸ hfirst)]
        · rfl

/-- Members that are written one after the other are looked up by what was written last. -/
theorem get?_ofList (pairs : Members) (k : String) : (ofList pairs).get? k = pairs.last? k := by
  induction pairs using List.reverseRecOn with
  | nil => rfl
  | append_singleton pairs pair ih =>
      have hwritten : ofList (pairs ++ [pair]) = put pair.1 pair.2 (ofList pairs) := by
        rw [ofList, List.foldl_append]
        rfl
      rw [hwritten, get?_put, last?_concat, ih]

/-- A key that is written once has the value that was written. -/
theorem last?_of_mem {pairs : Members} (honce : pairs.keys.count key ≤ 1)
    (hmem : (key, value) ∈ pairs) : pairs.last? key = some value := by
  induction pairs using List.reverseRecOn with
  | nil => cases hmem
  | append_singleton pairs pair ih =>
      obtain ⟨first, v⟩ := pair
      have hkeys : keys (pairs ++ [(first, v)]) = keys pairs ++ [first] := by simp [keys]
      rw [hkeys, List.count_append] at honce
      rw [last?_concat]
      rcases List.mem_append.mp hmem with hmem | hmem
      · have hkey : 0 < (keys pairs).count key :=
          List.count_pos_iff.mpr (List.mem_map.mpr ⟨_, hmem, rfl⟩)
        have hne : key ≠ first := by
          rintro rfl
          rw [List.count_singleton_self] at honce
          omega
        rw [if_neg hne]
        exact ih (Nat.le_trans (Nat.le_add_right _ _) honce) hmem
      · cases List.mem_singleton.mp hmem
        rw [if_pos rfl]

/-- Members that are written one after the other are merged. -/
theorem ofList_eq_merge (pairs : Members) : ofList pairs = merge pairs := by
  -- the members are put one after the other, so the last one is split off
  induction pairs using List.reverseRecOn with
  | nil => rfl
  | append_singleton pairs pair ih =>
      obtain ⟨key, value⟩ := pair
      have hwritten : ofList (pairs ++ [(key, value)]) = put key value (merge pairs) := by
        rw [← ih, ofList, List.foldl_append]
        rfl
      have hkeys : keys (pairs ++ [(key, value)]) = keys pairs ++ [key] := by simp [keys]
      have hlast : last? (pairs ++ [(key, value)]) =
          fun k => if k = key then some value else last? pairs k :=
        funext fun k => last?_concat pairs k
      rw [hwritten, merge, merge, hkeys, eraseDups_concat, hlast]
      split
      · rename_i hmem
        apply put_select_of_mem (nodup_eraseDups _) (List.mem_eraseDups.mpr hmem)
        exact fun k hk => isSome_last? (List.mem_eraseDups.mp hk)
      · rename_i hmem
        have hfresh : key ∉ (keys pairs).eraseDups := by rwa [List.mem_eraseDups]
        have hsame : select (last? pairs) (keys pairs).eraseDups =
            select (fun k => if k = key then some value else last? pairs k)
              (keys pairs).eraseDups := by
          apply select_congr
          intro k hk
          rw [if_neg]
          rintro rfl
          exact hfresh hk
        rw [put_select_of_notMem hfresh, hsame, select, select, List.filterMap_append]
        simp

end Members

namespace Value

mutual

/-- A value with the members of all its objects merged. -/
def merged : Value → Value
  | .arr items => .arr (mergedItems items)
  | .obj members => .obj (Members.merge (mergedMembers members))
  | v => v

/-- Items with the members of all their objects merged. -/
def mergedItems : List Value → List Value
  | [] => []
  | x :: xs => merged x :: mergedItems xs

/-- Members with the members of all objects among their values merged. -/
def mergedMembers : Members → Members
  | [] => []
  | (key, x) :: xs => (key, merged x) :: mergedMembers xs

end

theorem keys_mergedMembers (members : Members) :
    Members.keys (mergedMembers members) = members.keys := by
  induction members with
  | nil => rfl
  | cons m rest ih => exact congrArg (m.1 :: ·) ih

end Value
end ModAtlas.Json
