import ModAtlas.Proofs.Document.Strict

/-!
# Written keys

The keys of a form with their places in its text, those of inner objects included. Each stands
where its offset says, with its colon behind it, and the keys of an object itself are the ones
that lie in no container but that.
-/

namespace ModAtlas.Document
open ModAtlas.Json ModAtlas.Json.Strict

/-- A key as it is written: where its token starts, in how many containers it lies, and the name
that it stands for. -/
structure WrittenKey where
  offset : Nat
  depth : Nat
  token : List Char
  name : String

mutual

/-- The keys in a form whose text starts at an offset inside so many containers. -/
def Form.keys (o depth : Nat) : Form → List WrittenKey
  | .scalar _ _ => []
  | .emptyArray _ => []
  | .array items => items.keys (o + 1) (depth + 1)
  | .emptyObject _ => []
  | .object members => members.keys (o + 1) (depth + 1)
  | .property key name left right value =>
    ⟨o, depth, key, name⟩ :: value.keys (o + key.length + left.length + 1 + right.length) depth

/-- The keys in parts. -/
def Parts.keys (o depth : Nat) : Parts → List WrittenKey
  | .last before part _ => part.keys (o + before.length) depth
  | .next before part after rest =>
    part.keys (o + before.length) depth ++
      rest.keys (o + before.length + part.text.length + after.length + 1) depth

end

section Keys
variable {number? : Numeral → Option Number} {o d : Nat} {k : WrittenKey}

/-! ## Depths -/

mutual

theorem Form.le_depth_of_mem_keys : ∀ {o d : Nat} {f : Form}, k ∈ f.keys o d → d ≤ k.depth
  | _, _, .scalar _ _, h => by cases h
  | _, _, .emptyArray _, h => by cases h
  | _, _, .emptyObject _, h => by cases h
  | _, _, .array _, h => Nat.le_of_succ_le (Parts.le_depth_of_mem_keys h)
  | _, _, .object _, h => Nat.le_of_succ_le (Parts.le_depth_of_mem_keys h)
  | _, _, .property _ _ _ _ _, h => by
      rcases List.mem_cons.mp h with rfl | h
      · exact Nat.le_refl _
      · exact Form.le_depth_of_mem_keys h

theorem Parts.le_depth_of_mem_keys : ∀ {o d : Nat} {parts : Parts},
    k ∈ parts.keys o d → d ≤ k.depth
  | _, _, .last _ _ _, h => Form.le_depth_of_mem_keys h
  | _, _, .next _ _ _ _, h => by
      rcases List.mem_append.mp h with h | h
      · exact Form.le_depth_of_mem_keys h
      · exact Parts.le_depth_of_mem_keys h

end

/-- The keys inside a value lie in a container more. -/
theorem Form.lt_depth_of_mem_keys {f : Form} (hkind : f.isProperty = false)
    (h : k ∈ f.keys o d) : d < k.depth := by
  cases f with
  | array items => exact Parts.le_depth_of_mem_keys h
  | object members => exact Parts.le_depth_of_mem_keys h
  | property => cases hkind
  | _ => cases h

/-- Of the keys in a property its own one lies in no further container. -/
theorem Form.exists_key_iff {f : Form} (hkind : f.isProperty = true)
    (hf : ValidForm number? f) {name : String} :
    (∃ k ∈ f.keys o d, k.depth = d ∧ k.name = name) ↔ f.name = name := by
  cases f with
  | property key own left right value =>
      obtain ⟨-, -, -, hvalue, -⟩ := hf
      constructor
      · rintro ⟨k, hk, hdepth, rfl⟩
        rcases List.mem_cons.mp hk with rfl | hk
        · rfl
        · exact absurd hdepth (Nat.ne_of_gt (Form.lt_depth_of_mem_keys hvalue hk))
      · rintro rfl
        exact ⟨_, List.mem_cons_self, rfl, rfl⟩
  | _ => cases hkind

/-- The keys of an object are those that lie in it and in no inner container. -/
theorem Parts.exists_key_iff {name : String} : ∀ {o : Nat} {parts : Parts},
    ValidParts number? true parts →
      ((∃ k ∈ parts.keys o d, k.depth = d ∧ k.name = name) ↔ name ∈ parts.members.keys)
  | _, .last _ part _, ⟨_, hpart, _, hkind⟩ => by
      rw [Parts.keys, Form.exists_key_iff hkind hpart, Parts.members]
      simp [Members.keys, eq_comm]
  | _, .next _ part _ rest, ⟨⟨_, hpart, _, hkind⟩, hrest⟩ => by
      simp only [Parts.keys, List.mem_append, or_and_right, exists_or]
      rw [Form.exists_key_iff hkind hpart, Parts.exists_key_iff hrest, Parts.members]
      simp [Members.keys, eq_comm]

/-! ## Places -/

/-- A key stands in a text that starts at an offset, with a colon behind it. -/
def StandsIn (number? : Numeral → Option Number) (o : Nat) (t : List Char) (k : WrittenKey) :
    Prop :=
  ∃ front left after, t = front ++ (k.token ++ (left ++ ':' :: after)) ∧ Blanks left ∧
    k.offset = o + front.length ∧ StrictToken number? k.token (.string k.name)

theorem StandsIn.within {t u w : List Char} (h : StandsIn number? (o + u.length) t k) :
    StandsIn number? o (u ++ (t ++ w)) k := by
  obtain ⟨front, left, after, rfl, hleft, hoffset, htoken⟩ := h
  refine ⟨u ++ front, left, after ++ w, by simp, hleft, ?_, htoken⟩
  rw [hoffset, List.length_append, Nat.add_assoc]

mutual

/-- The keys of a form stand in its text. -/
theorem Form.standsIn : ∀ {o d : Nat} {f : Form}, ValidForm number? f → k ∈ f.keys o d →
    StandsIn number? o f.text k
  | _, _, .scalar _ _, _, h => by cases h
  | _, _, .emptyArray _, _, h => by cases h
  | _, _, .emptyObject _, _, h => by cases h
  | _, _, .array _, hf, h => (Parts.standsIn hf h).within (u := ['['])
  | _, _, .object _, hf, h => (Parts.standsIn hf h).within (u := ['\x7b'])
  | o, _, .property key name left right value, ⟨hkey, hleft, _, _, hvalue⟩, h => by
      rcases List.mem_cons.mp h with rfl | h
      · exact ⟨[], left, right ++ value.text, rfl, hleft, rfl, hkey⟩
      · have hin := Form.standsIn hvalue h
        have hlength : o + key.length + left.length + 1 + right.length =
            o + (key ++ (left ++ ':' :: right)).length := by
          simp only [List.length_append, List.length_cons]
          omega
        rw [hlength] at hin
        simpa [Form.text] using hin.within (w := [])

theorem Parts.standsIn : ∀ {o d : Nat} {properties : Bool} {parts : Parts},
    ValidParts number? properties parts → k ∈ parts.keys o d → StandsIn number? o parts.text k
  | _, _, _, .last _ _ _, ⟨_, hpart, _, _⟩, h => (Form.standsIn hpart h).within
  | o, _, _, .next before part after rest, ⟨⟨_, hpart, _, _⟩, hrest⟩, h => by
      rcases List.mem_append.mp h with h | h
      · exact (Form.standsIn hpart h).within
      · have hin := Parts.standsIn hrest h
        have hlength : o + before.length + part.text.length + after.length + 1 =
            o + (before ++ (part.text ++ (after ++ [',']))).length := by
          simp only [List.length_append, List.length_cons, List.length_nil]
          omega
        rw [hlength] at hin
        simpa [Parts.text] using hin.within (w := [])

end

end Keys
end ModAtlas.Document

namespace ModAtlas.Json.Strict
open ModAtlas.Document

namespace Layout
variable {number? : Numeral → Option Number} {text : List Char} {v : Value}

/-- The keys of a text, as it is laid out. -/
def keys (l : Layout number? text v) : List WrittenKey := l.form.keys l.lead.length 0

theorem standsIn (l : Layout number? text v) {k : WrittenKey} (hk : k ∈ l.keys) :
    StandsIn number? 0 text k := by
  have hlength : l.lead.length = 0 + l.lead.length := (Nat.zero_add _).symm
  rw [keys, hlength] at hk
  exact l.text_eq ▸ (Form.standsIn l.valid hk).within

/-- The keys of the object that a text holds are those that are written in no inner container. -/
theorem exists_key_iff {members : Members} (l : Layout number? text (.obj members))
    {name : String} : (∃ k ∈ l.keys, k.depth = 1 ∧ k.name = name) ↔ name ∈ members.keys := by
  have hvalue := l.value
  have hvalid := l.valid
  rw [keys]
  cases hform : l.form with
  | object parts =>
      rw [hform] at hvalue hvalid
      obtain rfl : Members.merge (Value.mergedMembers parts.members) = members :=
        Value.obj.inj hvalue
      rw [Members.mem_keys_merge, Value.keys_mergedMembers]
      exact Parts.exists_key_iff hvalid
  | emptyObject gap =>
      rw [hform] at hvalue
      obtain rfl : [] = members := Value.obj.inj hvalue
      simp [Form.keys, Members.keys]
  | scalar token value =>
      rw [hform] at hvalue
      cases value <;> cases hvalue
  | emptyArray gap =>
      rw [hform] at hvalue
      cases hvalue
  | array items =>
      rw [hform] at hvalue
      cases hvalue
  | property key own left right value =>
      have hkind := l.kind
      rw [hform] at hkind
      cases hkind

end Layout
end ModAtlas.Json.Strict
