import ModAtlas.Proofs.Document.Exact
import ModAtlas.Proofs.Document.Rewriting
import ModAtlas.Proofs.Json.Integer
import ModAtlas.Proofs.Json.Merging

/-!
# Spellings of values

A value is spelled with any escapes in its strings and any gaps around its tokens. Every spelling
of a value that is not too deep is read, and what is read is the value with repeated keys merged.
Where the value is too deep, reading stops at the first bracket beyond the limit.
-/

namespace ModAtlas.Document
open ModAtlas.Json

/-! ## The value of a form -/

/-- The name of a property. -/
def Form.name : Form → String
  | .property _ name _ _ _ => name
  | _ => ""

mutual

/-- The value that a form spells, with all the members as they are written. -/
def Form.value : Form → Value
  | .scalar _ value => value.toValue
  | .emptyArray _ => .arr []
  | .array items => .arr items.values
  | .emptyObject _ => .obj []
  | .object members => .obj members.members
  | .property _ _ _ _ value => value.value

/-- The values that the items of an array spell. -/
def Parts.values : Parts → List Value
  | .last _ part _ => [part.value]
  | .next _ part _ rest => part.value :: rest.values

/-- The keys and the values that the properties of an object spell. -/
def Parts.members : Parts → Members
  | .last _ part _ => [(part.name, part.value)]
  | .next _ part _ rest => (part.name, part.value) :: rest.members

end

theorem Scalar.merged_toValue (v : Scalar) : v.toValue.merged = v.toValue := by
  cases v <;> rfl

theorem Scalar.depth_toValue (v : Scalar) : v.toValue.depth = 0 := by
  cases v <;> rfl

section Rewritten
variable (onGap onToken : List Char → List Char)

theorem Form.name_rewritten (f : Form) : (f.rewritten onGap onToken).name = f.name := by
  cases f <;> rfl

mutual

/-- The value of a form does not depend on its gaps and on how its tokens are written. -/
theorem Form.value_rewritten : ∀ f : Form, (f.rewritten onGap onToken).value = f.value
  | .scalar _ _ => rfl
  | .emptyArray _ => rfl
  | .emptyObject _ => rfl
  | .array items => congrArg Value.arr (Parts.values_rewritten items)
  | .object members => congrArg Value.obj (Parts.members_rewritten members)
  | .property _ _ _ _ value => Form.value_rewritten value

theorem Parts.values_rewritten :
    ∀ parts : Parts, (parts.rewritten onGap onToken).values = parts.values
  | .last _ part _ => congrArg (· :: []) (Form.value_rewritten part)
  | .next _ part _ rest =>
    congrArg₂ List.cons (Form.value_rewritten part) (Parts.values_rewritten rest)

theorem Parts.members_rewritten :
    ∀ parts : Parts, (parts.rewritten onGap onToken).members = parts.members
  | .last _ part _ => by
      rw [Parts.rewritten, Parts.members, Parts.members, Form.value_rewritten part,
        Form.name_rewritten]
  | .next _ part _ rest => by
      rw [Parts.rewritten, Parts.members, Parts.members, Form.value_rewritten part,
        Form.name_rewritten, Parts.members_rewritten rest]

end

end Rewritten

theorem Form.name?_node (f : Form) (o : Nat) : (f.node o).name?.getD "" = f.name := by
  cases f <;> rfl

mutual

/-- The tree of a form has the form's value, with repeated keys merged. -/
theorem Form.toValue_node (o : Nat) : ∀ f : Form, (f.node o).toValue = f.value.merged
  | .scalar _ v => v.merged_toValue.symm
  | .emptyArray _ => rfl
  | .emptyObject _ => rfl
  | .array items => by
      rw [Form.node, Node.toValue, Parts.toValues_nodes _ items, Form.value, Value.merged]
  | .object members => by
      rw [Form.node, Node.toValue, Parts.toMembers_nodes _ members, Members.ofList_eq_merge,
        Form.value, Value.merged]
  | .property _ _ _ _ value => by
      rw [Form.node, Node.toValue, Form.toValue_node _ value, Form.value]

theorem Parts.toValues_nodes (o : Nat) :
    ∀ parts : Parts, Node.toValues (parts.nodes o) = Value.mergedItems parts.values
  | .last _ part _ => by
      simp only [Parts.nodes, Node.toValues, Form.toValue_node _ part, Parts.values,
        Value.mergedItems]
  | .next _ part _ rest => by
      simp only [Parts.nodes, Node.toValues, Form.toValue_node _ part,
        Parts.toValues_nodes _ rest, Parts.values, Value.mergedItems]

theorem Parts.toMembers_nodes (o : Nat) :
    ∀ parts : Parts, Node.toMembers (parts.nodes o) = Value.mergedMembers parts.members
  | .last _ part _ => by
      simp only [Parts.nodes, Node.toMembers, Form.name?_node, Form.toValue_node _ part,
        Parts.members, Value.mergedMembers]
  | .next _ part _ rest => by
      simp only [Parts.nodes, Node.toMembers, Form.name?_node, Form.toValue_node _ part,
        Parts.toMembers_nodes _ rest, Parts.members, Value.mergedMembers]

end

mutual

theorem Form.depth_value : ∀ f : Form, f.value.depth = f.depth
  | .scalar _ v => v.depth_toValue
  | .emptyArray _ => rfl
  | .emptyObject _ => rfl
  | .array items => congrArg (· + 1) (Parts.depthItems_values items)
  | .object members => congrArg (· + 1) (Parts.depthMembers_members members)
  | .property _ _ _ _ value => Form.depth_value value

theorem Parts.depthItems_values : ∀ parts : Parts, Value.depthItems parts.values = parts.depth
  | .last _ part _ => by
      simp only [Parts.values, Value.depthItems, Form.depth_value part, Nat.max_zero, Parts.depth]
  | .next _ part _ rest => by
      simp only [Parts.values, Value.depthItems, Form.depth_value part,
        Parts.depthItems_values rest, Parts.depth]

theorem Parts.depthMembers_members :
    ∀ parts : Parts, Value.depthMembers parts.members = parts.depth
  | .last _ part _ => by
      simp only [Parts.members, Value.depthMembers, Form.depth_value part, Nat.max_zero,
        Parts.depth]
  | .next _ part _ rest => by
      simp only [Parts.members, Value.depthMembers, Form.depth_value part,
        Parts.depthMembers_members rest, Parts.depth]

end

/-! ## The first bracket beyond a limit -/

theorem find?_cons_opening {limit : Nat} {p : Opening} {rest : List Opening}
    (hp : p.depth ≤ limit + 1)
    (hrest : p.depth ≤ limit → rest.find? (fun q => limit < q.depth) =
      rest.find? (fun q => q.depth = limit + 1)) :
    (p :: rest).find? (fun q => limit < q.depth) =
      (p :: rest).find? (fun q => q.depth = limit + 1) := by
  rcases Nat.lt_or_ge limit p.depth with hlt | hle
  · have heq : p.depth = limit + 1 := by omega
    rw [List.find?_cons_of_pos (by simpa using hlt), List.find?_cons_of_pos (by simpa using heq)]
  · have hne : p.depth ≠ limit + 1 := by omega
    rw [List.find?_cons_of_neg (by simpa using hle), List.find?_cons_of_neg (by simpa using hne),
      hrest hle]

mutual

/-- The first bracket that opens beyond a limit opens one deeper than the limit. -/
theorem Form.find?_openings {o d limit : Nat} (hd : d ≤ limit) : ∀ f : Form,
    (f.openings o d).find? (fun p => limit < p.depth) =
      (f.openings o d).find? (fun p => p.depth = limit + 1)
  | .scalar _ _ => rfl
  | .emptyArray _ => find?_cons_opening (Nat.succ_le_succ hd) fun _ => rfl
  | .emptyObject _ => find?_cons_opening (Nat.succ_le_succ hd) fun _ => rfl
  | .array items =>
    find?_cons_opening (Nat.succ_le_succ hd) fun hle => Parts.find?_openings hle items
  | .object members =>
    find?_cons_opening (Nat.succ_le_succ hd) fun hle => Parts.find?_openings hle members
  | .property _ _ _ _ value => Form.find?_openings hd value

theorem Parts.find?_openings {o d limit : Nat} (hd : d ≤ limit) : ∀ parts : Parts,
    (parts.openings o d).find? (fun p => limit < p.depth) =
      (parts.openings o d).find? (fun p => p.depth = limit + 1)
  | .last _ part _ => Form.find?_openings hd part
  | .next _ part _ rest => by
      simp only [Parts.openings, List.find?_append, Form.find?_openings hd part,
        Parts.find?_openings hd rest]

end

/-- At an index of a text stands an opening bracket. -/
def OpensAt (text : List Char) (i : Nat) : Prop := text[i]? = some '[' ∨ text[i]? = some '\x7b'

theorem OpensAt.append_right {text : List Char} {i : Nat} (h : OpensAt text i)
    (after : List Char) : OpensAt (text ++ after) i :=
  h.imp (fun h => (List.getElem?_append_left (List.getElem?_eq_some_iff.mp h).1).trans h)
    fun h => (List.getElem?_append_left (List.getElem?_eq_some_iff.mp h).1).trans h

theorem OpensAt.append_left {text : List Char} {i : Nat} (h : OpensAt text i)
    (before : List Char) : OpensAt (before ++ text) (before.length + i) := by
  unfold OpensAt
  rw [List.getElem?_append_right (Nat.le_add_right _ _), Nat.add_sub_cancel_left]
  exact h

mutual

/-- Where a form opens a container, its text has an opening bracket. -/
theorem Form.opensAt {o d : Nat} {p : Opening} : ∀ {f : Form}, p ∈ f.openings o d →
    ∃ i, p.offset = o + i ∧ OpensAt f.text i
  | .scalar _ _, h => by cases h
  | .emptyArray _, h => by
      obtain rfl := List.mem_singleton.mp h
      exact ⟨0, rfl, .inl rfl⟩
  | .emptyObject _, h => by
      obtain rfl := List.mem_singleton.mp h
      exact ⟨0, rfl, .inr rfl⟩
  | .array items, h => by
      rcases List.mem_cons.mp h with rfl | h
      · exact ⟨0, rfl, .inl rfl⟩
      · obtain ⟨i, hi, hopens⟩ := Parts.opensAt h
        refine ⟨['['].length + i, by rw [hi, Nat.add_assoc]; rfl, ?_⟩
        exact (hopens.append_right [']']).append_left ['[']
  | .object members, h => by
      rcases List.mem_cons.mp h with rfl | h
      · exact ⟨0, rfl, .inr rfl⟩
      · obtain ⟨i, hi, hopens⟩ := Parts.opensAt h
        refine ⟨['\x7b'].length + i, by rw [hi, Nat.add_assoc]; rfl, ?_⟩
        exact (hopens.append_right ['\x7d']).append_left ['\x7b']
  | .property key name left right value, h => by
      obtain ⟨i, hi, hopens⟩ := Form.opensAt (f := value) h
      refine ⟨(key ++ (left ++ ':' :: right)).length + i, ?_, ?_⟩
      · simp only [hi, List.length_append, List.length_cons]
        omega
      · simpa [Form.text] using hopens.append_left (key ++ (left ++ ':' :: right))

theorem Parts.opensAt {o d : Nat} {p : Opening} : ∀ {parts : Parts}, p ∈ parts.openings o d →
    ∃ i, p.offset = o + i ∧ OpensAt parts.text i
  | .last before part after, h => by
      obtain ⟨i, hi, hopens⟩ := Form.opensAt (f := part) h
      exact ⟨before.length + i, by omega, (hopens.append_right after).append_left before⟩
  | .next before part after rest, h => by
      rcases List.mem_append.mp h with h | h
      · obtain ⟨i, hi, hopens⟩ := Form.opensAt h
        exact ⟨before.length + i, by omega,
          (hopens.append_right (after ++ ',' :: rest.text)).append_left before⟩
      · obtain ⟨i, hi, hopens⟩ := Parts.opensAt h
        refine ⟨(before ++ (part.text ++ (after ++ [',']))).length + i, ?_, ?_⟩
        · simp only [hi, List.length_append, List.length_cons, List.length_nil]
          omega
        · simpa [Parts.text] using
            hopens.append_left (before ++ (part.text ++ (after ++ [','])))

end

/-! ## Spellings -/

/-- The tokens that spell a scalar, and integers of 64 bits in canonical decimal. -/
inductive Spelled : List Char → Scalar → Prop
  | word {text : List Char} {value : Scalar} (listed : (text, value) ∈ words) :
      Spelled text value
  | string {body : List Char} {s : String} (quoted : Quoted body s.toList) :
      Spelled ('"' :: (body ++ ['"'])) (.string s)
  | int {n : Int} (low : -0x8000000000000000 ≤ n) (high : n ≤ 0xffffffffffffffff) :
      Spelled (toString n).toList (.number (.int n))

theorem Spelled.token {t : List Char} {v : Scalar} (h : Spelled t v) : Token t v := by
  cases h with
  | word listed => exact .word listed
  | string quoted => exact .string quoted
  | @int n low high =>
      have hfits : Numeral.fits64 n = true := by
        simp only [Numeral.fits64, Bool.and_eq_true, decide_eq_true_eq]
        omega
      rw [← Numeral.spelling_ofInt]
      refine .number (Numeral.wellWritten_ofInt n) ?_
      simp [numberOf, Numeral.isAscii_ofInt, Numeral.number?_ofInt hfits]

/-- A way to spell a value: the form of it and the gaps around that. -/
structure Spelling (v : Value) where
  lead : List Char
  form : Form
  tail : List Char
  leadGap : Gap lead
  valid : form.Valid Gap Spelled
  kind : form.isProperty = false
  value : form.value = v
  tailGap : LastGap tail

namespace Spelling
variable {v : Value} (s : Spelling v)

/-- The text of a spelling. -/
def text : List Char := s.lead ++ (s.form.text ++ s.tail)

/-- The first bracket of the text from which on so many containers are open. -/
def bracket? (depth : Nat) : Option Opening :=
  (s.form.openings s.lead.length 0).find? fun p => p.depth = depth

theorem written : Written s.text s.lead s.form s.tail :=
  ⟨rfl, s.leadGap, s.valid.mono (fun _ h => h) fun _ _ h => h.token, s.kind, s.tailGap⟩

/-- Every spelling of a value that is not too deep is read as that value, with its first place and
its last value for each repeated key. A value that is too deep is refused at the first bracket
beyond the limit. -/
theorem reads_merged :
    (v.depth ≤ nestingLimit → ∃ n, read s.text = .ok n ∧ n.toValue = v.merged) ∧
      (nestingLimit < v.depth → ∃ p, s.bracket? (nestingLimit + 1) = some p ∧
        OpensAt s.text p.offset ∧ read s.text = .error (.fault .nestingTooDeep p.offset)) := by
  have hdepth : v.depth = s.form.depth := by
    rw [← Form.depth_value]
    exact congrArg Value.depth s.value.symm
  have hread := read_written s.written
  rw [hdepth]
  constructor
  · -- no bracket opens beyond the limit
    intro hle
    rw [orTooDeep_of_depth_le hle] at hread
    refine ⟨_, hread, ?_⟩
    rw [Form.toValue_node, s.value]
  · -- the first bracket beyond the limit is the first that opens one deeper than it
    intro hlt
    have hfind := Form.find?_openings (o := s.lead.length) (Nat.zero_le nestingLimit) s.form
    cases hbracket : s.bracket? (nestingLimit + 1) with
    | none =>
        have hall := List.find?_eq_none.mp (hfind.trans hbracket)
        have hle := (Form.openings_le_iff (Nat.zero_le nestingLimit) s.form).mp
          fun p hp => by simpa using hall p hp
        omega
    | some p =>
        obtain ⟨i, hi, hopens⟩ := Form.opensAt (List.mem_of_find?_eq_some hbracket)
        refine ⟨p, rfl, ?_, ?_⟩
        · rw [hi]
          exact (hopens.append_right s.tail).append_left s.lead
        · rw [hread, orTooDeep, hfind.trans hbracket]
          rfl

/-- An object that repeats a key, spelled with an escape and two comments. -/
def repeated : Spelling
    (.obj [("k", .arr [.num (.int 1)]), ("l", .null), ("k", .num (.int (-2)))]) where
  lead := "/***/".toList
  form := .object
    (.next [] (.property "\"k\"".toList "k" [] [' ']
      (.array (.last [] (.scalar ['1'] (.number (.int 1))) []))) []
    (.next [' '] (.property "\"l\"".toList "l" [] [] (.scalar "null".toList .null)) []
    (.last [' '] (.property "\"\\u006b\"".toList "k" [] [' ']
      (.scalar ['-', '2'] (.number (.int (-2))))) [])))
  tail := "// end".toList
  leadGap := Gap.block (show ¬ ['*', '/'] <:+: ['*'] by decide) .nil
  valid := by
    have hspace : Gap [' '] := .blank rfl .nil
    refine ⟨⟨.nil, ⟨?_, .nil, hspace, rfl, .nil, ?_, .nil, rfl⟩, .nil, rfl⟩,
      ⟨hspace, ⟨?_, .nil, .nil, rfl, ?_⟩, .nil, rfl⟩,
      hspace, ⟨?_, .nil, hspace, rfl, ?_⟩, .nil, rfl⟩
    · exact .string (quoted_iff (s := ['k']) (r := []) |>.mpr ⟨rfl, rfl⟩)
    · exact .int (n := 1) (by decide) (by decide)
    · exact .string (quoted_iff (s := ['l']) (r := []) |>.mpr ⟨rfl, rfl⟩)
    · exact .word (by decide)
    · exact .string (quoted_iff (s := "\\u006b".toList) (r := []) |>.mpr ⟨rfl, rfl⟩)
    · exact .int (n := -2) (by decide) (by decide)
  kind := rfl
  value := rfl
  tailGap := .line .nil (by decide)

/-- An array in an array, so many times over. -/
def nestedForm : Nat → Form
  | 0 => .emptyArray []
  | count + 1 => .array (.last [] (nestedForm count) [])

theorem nestedForm_valid : ∀ count, (nestedForm count).Valid Gap Spelled
  | 0 => .nil
  | count + 1 => ⟨.nil, nestedForm_valid count, .nil, by cases count <;> rfl⟩

/-- Arrays in one another, spelled without gaps. -/
def nested (count : Nat) : Spelling (nestedForm count).value where
  lead := []
  form := nestedForm count
  tail := []
  leadGap := .nil
  valid := nestedForm_valid count
  kind := by cases count <;> rfl
  value := rfl
  tailGap := .gap .nil

theorem reads_merged_repeated :
    (∃ n, read "/***/\x7b\"k\": [1], \"l\":null, \"\\u006b\": -2\x7d// end".toList = .ok n ∧
      n.toValue = .obj [("k", .num (.int (-2))), ("l", .null)]) ∧
      read (List.replicate 65 '[' ++ List.replicate 65 ']') =
        .error (.fault .nestingTooDeep 64) := by
  constructor
  · exact repeated.reads_merged.1 (by decide)
  · obtain ⟨p, hp, -, hread⟩ := (nested 64).reads_merged.2 (by decide +kernel)
    have hbracket : (nested 64).bracket? (nestingLimit + 1) = some ⟨64, 65⟩ := by decide +kernel
    obtain rfl := Option.some.inj (hp.symm.trans hbracket)
    exact hread

end Spelling
end ModAtlas.Document
