import ModAtlas.Proofs.Document.Exact
import ModAtlas.Proofs.Document.Walk
import ModAtlas.Proofs.Json.Merging

/-!
# Paths through values and trees

A path leads from a value to a part of it, and it can be followed in the tree that the value was
read from. Both ways reach the same part, as long as no object on the way repeats the key that is
taken: the value keeps what was written last under a key, and the tree is followed into the first
property with it.
-/

namespace ModAtlas.Document
open ModAtlas.Json

/-! ## Values of trees -/

namespace Node
variable {properties : List Node} {name : String}

theorem toValues_eq (items : List Node) : toValues items = items.map toValue := by
  induction items with
  | nil => rfl
  | cons item items ih => rw [toValues, List.map_cons, ih]

theorem mem_toMembers {p : Node} (h : p ∈ properties) :
    (p.name?.getD "", p.toValue) ∈ toMembers properties := by
  induction properties with
  | nil => cases h
  | cons first properties ih =>
      rw [toMembers]
      rcases List.mem_cons.mp h with rfl | h
      · exact List.mem_cons_self
      · exact List.mem_cons_of_mem _ (ih h)

/-- A tree of a value or of a property: the items of arrays are values, and what an object holds
are properties, each with a string for a key. -/
inductive Shaped : Bool → Node → Prop
  | scalar (span : Span) (value : Scalar) : Shaped false (.scalar span value)
  | array (span : Span) {items : List Node} (each : ∀ n ∈ items, Shaped false n) :
      Shaped false (.array span items)
  | object (span : Span) {properties : List Node} (each : ∀ n ∈ properties, Shaped true n) :
      Shaped false (.object span properties)
  | property (span keySpan : Span) (name : String) (colon : Nat) {value : Node}
      (inner : Shaped false value) :
      Shaped true (.property span (.scalar keySpan (.string name)) colon value)

/-- The names of properties are the keys of what they are written as. -/
theorem keys_toMembers (h : ∀ p ∈ properties, p.Shaped true) :
    Members.keys (toMembers properties) = properties.filterMap name? := by
  induction properties with
  | nil => rfl
  | cons p properties ih =>
      obtain ⟨hp, hrest⟩ := List.forall_mem_cons.mp h
      cases hp with
      | property span keySpan name colon inner =>
          rw [toMembers, Members.keys, List.map_cons, ← Members.keys, ih hrest]
          rfl

theorem findProperty_of_mem {p : Node} (hp : p ∈ properties) (hname : p.name? = some name)
    (index : Nat) :
    ∃ i q, findProperty name index properties = some (i, q) ∧ q ∈ properties ∧
      q.name? = some name := by
  induction properties generalizing index with
  | nil => cases hp
  | cons first rest ih =>
      rw [findProperty]
      split
      · rename_i hfirst
        exact ⟨index, first, rfl, List.mem_cons_self, hfirst⟩
      · rename_i hfirst
        have hrest : p ∈ rest := by
          rcases List.mem_cons.mp hp with rfl | hrest
          · exact absurd hname hfirst
          · exact hrest
        obtain ⟨i, q, hfound, hq, hnamed⟩ := ih hrest (index + 1)
        exact ⟨i, q, hfound, List.mem_cons_of_mem _ hq, hnamed⟩

theorem mem_of_findProperty {index i : Nat} {q : Node}
    (h : findProperty name index properties = some (i, q)) : q ∈ properties := by
  induction properties generalizing index with
  | nil => cases h
  | cons first rest ih =>
      rw [findProperty] at h
      split at h
      · cases h
        exact List.mem_cons_self
      · exact List.mem_cons_of_mem _ (ih h)

end Node

mutual

theorem Form.shaped_node {o : Nat} : ∀ {f : Form}, f.Valid Gap Token →
    (f.node o).Shaped f.isProperty
  | .scalar _ _, _ => .scalar _ _
  | .emptyArray _, _ => .array _ (fun _ hn => nomatch hn)
  | .emptyObject _, _ => .object _ (fun _ hn => nomatch hn)
  | .array _, h => .array _ (Parts.shaped_nodes h)
  | .object _, h => .object _ (Parts.shaped_nodes h)
  | .property _ _ _ _ _, ⟨_, _, _, hkind, hvalue⟩ =>
    .property _ _ _ _ (hkind ▸ Form.shaped_node hvalue)

theorem Parts.shaped_nodes {properties : Bool} {o : Nat} : ∀ {parts : Parts},
    parts.Valid Gap Token properties → ∀ n ∈ parts.nodes o, n.Shaped properties
  | .last _ _ _, ⟨_, hpart, _, hkind⟩, n, hn => by
      obtain rfl := List.mem_singleton.mp hn
      exact hkind ▸ Form.shaped_node hpart
  | .next _ _ _ _, ⟨⟨_, hpart, _, hkind⟩, hrest⟩, n, hn => by
      rcases List.mem_cons.mp hn with rfl | hn
      · exact hkind ▸ Form.shaped_node hpart
      · exact Parts.shaped_nodes hrest n hn

end

/-- The tree of a text is the tree of a value. -/
theorem shaped_of_read {text : List Char} {n : Node} (h : read text = .ok n) :
    n.Shaped false := by
  obtain ⟨lead, f, tail, hwritten, -, rfl⟩ := read_eq_ok_iff.mp h
  have hshaped := Form.shaped_node (o := lead.length) hwritten.form
  rwa [hwritten.kind] at hshaped

/-! ## Paths through values -/

/-- A step of a path leads from a value to a part of it. -/
inductive IsPart : Value → PathStep → Value → Prop
  | item {items : List Value} {i : Nat} {part : Value} (there : items[i]? = some part) :
      IsPart (.arr items) (.index i) part
  | member {members : Members} {key : String} {part : Value} (there : (key, part) ∈ members) :
      IsPart (.obj members) (.key key) part

/-- A path leads from a value to a part at any depth. -/
inductive Leads : Value → List PathStep → Value → Prop
  | here (value : Value) : Leads value [] value
  | step {value part inner : Value} {step : PathStep} {path : List PathStep}
      (first : IsPart value step part) (rest : Leads part path inner) :
      Leads value (step :: path) inner

/-! ## Paths through trees -/

namespace Place
variable {p : Place} {step : PathStep} {path : List PathStep}

/-- Some object on the way has several properties with the name that the path takes there. -/
def Repeats (p : Place) (path : List PathStep) : Prop :=
  ∃ before name after, path = before ++ .key name :: after ∧
    1 < ((p.follow before).node.children.filterMap Node.name?).count name

/-- The place that a place with one step more is followed to: a value below it. -/
structure StepsTo (p : Place) (step : PathStep) (q : Place) : Prop where
  follow : ∀ path, p.follow (step :: path) = q.follow path
  isValue : q.isValue = true
  shaped : q.node.Shaped false

theorem StepsTo.repeats {q : Place} (h : p.StepsTo step q) (hrepeats : q.Repeats path) :
    p.Repeats (step :: path) := by
  obtain ⟨before, name, after, rfl, hcount⟩ := hrepeats
  exact ⟨step :: before, name, after, rfl, by rwa [h.follow]⟩

/-- A key leads to the value of the first property with that name. -/
theorem stepsTo_value {span : Span} {properties : List Node} {way : List Step} {name : String}
    {i : Nat} {property : Node} (hfound : Node.findProperty name 0 properties = some (i, property))
    (hshaped : property.Shaped true) :
    ∃ q, StepsTo ⟨.object span properties, way⟩ (.key name) q ∧
      q.node.toValue = property.toValue := by
  cases hshaped with
  | property qSpan keySpan key colon inner =>
      rename_i value
      let above := Node.property qSpan (.scalar keySpan (.string key)) colon value
      refine ⟨⟨value, ⟨above, 1⟩ :: ⟨.object span properties, i⟩ :: way⟩, ⟨?_, rfl, inner⟩, ?_⟩
      · intro path
        simp only [follow, hfound]
        rfl
      · rw [Node.toValue]

/-- A step from the place of a value leads nowhere or to the place of a value. -/
theorem stepsTo_or_stays (hshaped : p.node.Shaped false) (step : PathStep) :
    (∃ q, p.StepsTo step q) ∨ ∀ path, p.follow (step :: path) = p := by
  obtain ⟨node, way⟩ := p
  cases hshaped with
  | scalar span value => exact .inr fun path => rfl
  | array span each =>
      rename_i items
      cases step with
      | key name => exact .inr fun path => rfl
      | index i =>
          by_cases hi : i < 0
          · exact .inr fun path => by simp [follow, hi]
          · cases hitem : items[i.toNat]? with
            | none => exact .inr fun path => by simp [follow, hi, hitem]
            | some item =>
                refine .inl ⟨⟨item, ⟨.array span items, i.toNat⟩ :: way⟩, ?_, rfl, ?_⟩
                · intro path
                  simp [follow, hi, hitem]
                · exact each item (List.mem_of_getElem? hitem)
  | object span each =>
      rename_i properties
      cases step with
      | index i => exact .inr fun path => rfl
      | key name =>
          cases hfound : Node.findProperty name 0 properties with
          | none => exact .inr fun path => by simp [follow, hfound]
          | some found =>
              obtain ⟨i, q⟩ := found
              obtain ⟨v, hv, -⟩ := stepsTo_value hfound (each q (Node.mem_of_findProperty hfound))
              exact .inl ⟨v, hv⟩

/-- However a path goes on, it is followed to the place of a value. -/
theorem isValue_follow (hshaped : p.node.Shaped false) (hvalue : p.isValue = true)
    (path : List PathStep) : (p.follow path).isValue = true := by
  induction path generalizing p with
  | nil => exact hvalue
  | cons step path ih =>
      rcases stepsTo_or_stays hshaped step with ⟨q, hq⟩ | hstays
      · rw [hq.follow]
        exact ih hq.shaped hq.isValue
      · rwa [hstays]

/-- A step to a part of the value can be taken in the tree, and where the key taken is not
repeated it leads to the part. -/
theorem stepsTo_of_isPart {part : Value} (hshaped : p.node.Shaped false)
    (hpart : IsPart p.node.toValue step part) :
    ∃ q, p.StepsTo step q ∧ (¬ p.Repeats [step] → q.node.toValue = part) := by
  obtain ⟨node, way⟩ := p
  cases hshaped with
  | scalar span value => cases value <;> cases hpart
  | array span each =>
      rename_i items
      dsimp only [Node.toValue] at hpart
      cases hpart with
      | item there =>
          rename_i i
          rw [Node.toValues_eq, List.getElem?_map, Option.map_eq_some_iff] at there
          obtain ⟨item, hitem, rfl⟩ := there
          refine ⟨⟨item, ⟨.array span items, i⟩ :: way⟩, ⟨?_, rfl, ?_⟩, fun _ => rfl⟩
          · intro path
            simp [follow, hitem, Int.not_ofNat_neg]
          · exact each item (List.mem_of_getElem? hitem)
  | object span each =>
      rename_i properties
      dsimp only [Node.toValue] at hpart
      cases hpart with
      | member there =>
          rename_i name
          rw [Members.ofList_eq_merge, Members.merge, Members.mem_select,
            List.mem_eraseDups, Node.keys_toMembers each] at there
          obtain ⟨hname, hlast⟩ := there
          obtain ⟨first, hfirst, hnamed⟩ := List.mem_filterMap.mp hname
          obtain ⟨i, q, hfound, hq, hqname⟩ := Node.findProperty_of_mem hfirst hnamed 0
          have hwritten := Node.mem_toMembers hq
          rw [hqname, Option.getD_some] at hwritten
          obtain ⟨v, hv, hvalue⟩ := stepsTo_value hfound (each q hq)
          refine ⟨v, hv, fun honce => ?_⟩
          have hcount : (Members.keys (Node.toMembers properties)).count name ≤ 1 := by
            rw [Node.keys_toMembers each]
            by_contra hmore
            exact honce ⟨[], name, [], rfl, Nat.lt_of_not_le hmore⟩
          have heq := Members.last?_of_mem hcount hwritten
          rw [hlast] at heq
          rw [hvalue, Option.some.inj heq]

/-- A path that leads to a part of the value is followed to a node with that value, unless an
object on the way repeats the key taken. -/
theorem toValue_follow {part : Value} (hshaped : p.node.Shaped false)
    (hleads : Leads p.node.toValue path part) (honce : ¬ p.Repeats path) :
    (p.follow path).node.toValue = part := by
  induction path generalizing p with
  | nil =>
      cases hleads
      rfl
  | cons step path ih =>
      cases hleads with
      | step first rest =>
          obtain ⟨q, hq, hvalue⟩ := stepsTo_of_isPart hshaped first
          have hfirst : ¬ p.Repeats [step] := by
            rintro ⟨before, name, after, heq, hcount⟩
            cases before with
            | nil =>
                cases heq
                exact honce ⟨[], name, path, rfl, hcount⟩
            | cons _ before => simp at heq
          rw [hq.follow]
          exact ih hq.shaped (hvalue hfirst ▸ rest) fun hrepeats => honce (hq.repeats hrepeats)

end Place
end ModAtlas.Document
