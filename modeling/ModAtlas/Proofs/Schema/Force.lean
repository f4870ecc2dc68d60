import ModAtlas.Document.Reader
import ModAtlas.Proofs.Document.Following
import ModAtlas.Proofs.Document.Ranges
import ModAtlas.Proofs.Schema.Closure
import ModAtlas.Proofs.Validation.Requirements

/-!
# Subschemas in force

In a document without problems a subschema that governs a value also accepts it, as long as it was
handed on with effect. A schema that stands beside a `$ref` has no effect on validity, of the
properties of one name only the last one counts, and a subschema with an `$id` or a `$schema` is a
document of its own. `matching_holds` says for every validator of draft 7 that all matches reached
with effect hold, that a match fails only behind a handing without effect, and that all matches
hold when references stand alone and are literal, the schema is undivided, its patterns can be
joined, and no object repeats a key.
-/

namespace ModAtlas.Schema.Matching
open ModAtlas.Json ModAtlas.Document ModAtlas.Validation

/-! ## Values of parts -/

section Parts
variable {place part : Place} {name : String} {index : Nat}

theorem IsProperty.exists_members (h : IsProperty place name part) :
    ∃ members, place.node.toValue = .obj members := by
  obtain ⟨⟨span, properties, hnode⟩, -⟩ := h
  rw [hnode]
  exact ⟨_, rfl⟩

/-- The value of a property is among the members that its object is written with. -/
theorem IsProperty.mem_toMembers {span : Span} {properties : List Node}
    (h : IsProperty place name part) (hnode : place.node = .object span properties) :
    (name, part.node.toValue) ∈ Node.toMembers properties := by
  obtain ⟨-, p, hp, rfl, hvalue⟩ := h
  have hmem := Place.node_mem_children hp
  rw [hnode] at hmem
  have hsame : p.node.toValue = part.node.toValue := by
    unfold Place.value? at hvalue
    split at hvalue
    · rename_i hproperty
      cases hvalue
      rw [hproperty, Node.toValue]
    · cases hvalue
  rw [← hsame]
  exact Node.mem_toMembers hmem

/-- The value of an item is the item of the array's value. -/
theorem IsItem.exists_items (h : IsItem place index part) :
    ∃ items, place.node.toValue = .arr items ∧ items[index]? = some part.node.toValue := by
  obtain ⟨⟨span, items, hnode⟩, hpart⟩ := h
  refine ⟨Node.toValues items, by rw [hnode, Node.toValue], ?_⟩
  have hitem : (place.children.map (·.node))[index]? = some part.node := by simp [hpart]
  rw [Place.map_node_children, hnode, Node.children] at hitem
  rw [Node.toValues_eq, List.getElem?_map, hitem, Option.map_some]

end Parts

/-! ## Handing on with effect -/

/-- The branches under a keyword. -/
def branchesOf (members : Members) (keyword : String) : List Value :=
  ((Members.get? members keyword).bind Value.items?).getD []

theorem branchesOf_eq {members : Members} {keyword : String} {branches : List Value}
    (member : Members.get? members keyword = some (.arr branches)) :
    branchesOf members keyword = branches := by
  simp [branchesOf, member, Value.items?]

/-- What a subschema hands on has an effect on validity. Beside a `$ref` it is what the `$ref`
leads to. For a property its value is the one that counts for the name, and where the property is
an additional one the patterns can be joined. It belongs to the whole schema, as do the branches
that it is one of. -/
structure HasEffect (root : Value) (test : PatternTest) (target : String → Option Value)
    (m : Match) (h : Handing) : Prop where
  referred : ∀ v, Members.get? m.members "$ref" = some v → v ≠ .null →
    ∃ ref, v = .str ref ∧ target ref = some h.schema ∧ h.place = m.place
  counted : ∀ name, IsProperty m.place name h.place →
    m.place.node.toValue.get? name = some h.place.node.toValue
  joined : h.pointer = Pointer.child m.pointer "additionalProperties" →
    ∀ name, IsProperty m.place name h.place → JoinsPatterns test m.members name
  belongs : Belongs root h.schema
  rivals : ∀ keyword, h.schema ∈ branchesOf m.members keyword →
    ∀ s ∈ branchesOf m.members keyword, Belongs root s

/-- The subschemas that decide which others a match hands on: its condition and its branches. -/
def deciding (m : Match) : List Value :=
  (Members.get? m.members "if").toList ++ branchesOf m.members "anyOf" ++
    branchesOf m.members "oneOf"

theorem mem_deciding_of_branch {m : Match} {keyword : String} {s : Value}
    (isBranching : keyword = "anyOf" ∨ keyword = "oneOf")
    (hs : s ∈ branchesOf m.members keyword) : s ∈ deciding m := by
  unfold deciding
  rcases isBranching with rfl | rfl
  · simp [hs]
  · simp [hs]

theorem mem_deciding_of_condition {m : Match} {s : Value}
    (member : Members.get? m.members "if" = some s) : s ∈ deciding m := by
  simp [deciding, member]

section Steps
variable {V : Validator} {root : Value} {test : PatternTest} {target : String → Option Value}
  {m : Match} {h : Handing}

/-- What is taken for valid is found valid. -/
theorem accepts_of_isValid {schema value : Value} (hvalid : V.isValid schema value = true) :
    V.Accepts schema value := by
  cases ha : V.accepts? schema value with
  | none => simp [Validator.isValid, ha] at hvalid
  | some a => simpa [Validator.isValid, ha, Validator.Accepts] using hvalid

/-- A condition or a branch that is not taken for valid is found invalid, if its evaluation
ends. -/
theorem refuses_of_isValid_eq_false {schema value : Value}
    (hinvalid : V.isValid schema value = false) (hends : V.accepts? schema value ≠ none) :
    V.Refuses schema value := by
  obtain ⟨a, ha⟩ := Option.ne_none_iff_exists'.mp hends
  simpa [Validator.isValid, ha, Validator.Refuses] using hinvalid

/-- What an accepting subschema hands on with effect is not refused. -/
theorem not_refuses_of_handsOn (draft : V.IsDraft7 root test target)
    (hbelongs : Belongs root (.obj m.members))
    (hm : V.Accepts (.obj m.members) m.place.node.toValue)
    (hrule : HandsOn root V.isValid test m h) (heffect : HasEffect root test target m h)
    (htests : ∀ s ∈ deciding m, V.accepts? s m.place.node.toValue ≠ none) :
    ¬ V.Refuses h.schema h.place.node.toValue := by
  by_cases hsole : (Members.get? m.members "$ref").getD .null = .null
  swap
  -- the target of the reference is all that was asked of the value
  · cases href : Members.get? m.members "$ref" with
    | none => simp [href] at hsole
    | some v =>
        have hv : v ≠ .null := by simpa [href] using hsole
        obtain ⟨ref, rfl, htarget, hplace⟩ := heffect.referred v href hv
        obtain ⟨ref', heq, hasked⟩ := draft.reference hbelongs hm href hv
        cases heq
        rw [hplace]
        exact hasked h.schema htarget heffect.belongs
  have hcounts : V.Counts root m.members m.place.node.toValue := ⟨hbelongs, hsole, hm⟩
  have hproperty {name : String} {value : Place} (part : IsProperty m.place name value)
      (hcounted : m.place.node.toValue.get? name = some value.node.toValue) :
      ∃ parts, V.Counts root m.members (.obj parts) ∧
        Members.get? parts name = some value.node.toValue := by
    obtain ⟨parts, hparts⟩ := part.exists_members
    rw [hparts] at hcounted hcounts
    exact ⟨parts, hcounts, hcounted⟩
  have hitem {index : Nat} {item : Place} (part : IsItem m.place index item) :
      ∃ values, V.Counts root m.members (.arr values) ∧
        values[index]? = some item.node.toValue := by
    obtain ⟨values, hvalues, hthere⟩ := part.exists_items
    rw [hvalues] at hcounts
    exact ⟨values, hcounts, hthere⟩
  cases hrule with
  | reference member isLocal leads =>
      rw [member] at hsole
      cases hsole
      cases isLocal
  | allOf member item =>
      exact draft.allOf hcounts member (List.mem_of_getElem? item) heffect.belongs
  | validBranch isBranching member item isValid =>
      intro hrefused
      cases (accepts_of_isValid isValid).symm.trans hrefused
  | anyBranch isBranching member item noneValid =>
      -- some branch does not refuse, but each was found invalid
      have hbranches := branchesOf_eq member
      have hrivals := heffect.rivals _ (by rw [hbranches]; exact List.mem_of_getElem? item)
      rw [hbranches] at hrivals
      obtain ⟨branch, hbranch, hkept⟩ := draft.branches hcounts isBranching member hrivals
      have hends := htests branch (mem_deciding_of_branch isBranching (hbranches ▸ hbranch))
      exact absurd (refuses_of_isValid_eq_false (noneValid branch hbranch) hends) hkept
  | consequent member isValid branch =>
      exact draft.conditional hcounts member (accepts_of_isValid isValid) branch heffect.belongs
  | alternative member isInvalid branch =>
      have hends := htests _ (mem_deciding_of_condition member)
      exact draft.conditional hcounts member (refuses_of_isValid_eq_false isInvalid hends) branch
        heffect.belongs
  | property part declared =>
      obtain ⟨parts, hparts, hvalue⟩ := hproperty part (heffect.counted _ part)
      exact draft.properties hparts hvalue declared heffect.belongs
  | patternProperty part fits =>
      obtain ⟨parts, hparts, hvalue⟩ := hproperty part (heffect.counted _ part)
      exact draft.patternProperties hparts hvalue fits heffect.belongs
  | additionalProperty part undeclared unfitting member =>
      obtain ⟨parts, hparts, hvalue⟩ := hproperty part (heffect.counted _ part)
      have hjoined : patternsOf m.members ≠ [] →
          test (Text.join "|" (patternsOf m.members)) _ = false := fun hsome =>
        heffect.joined rfl _ part hsome (test_eq_false_of_not_fits unfitting)
      exact draft.additionalProperties hparts hvalue undeclared hjoined member heffect.belongs
  | items part member =>
      obtain ⟨values, hvalues, hthere⟩ := hitem part
      exact draft.items hvalues hthere member heffect.belongs
  | itemAt part member own =>
      obtain ⟨values, hvalues, hthere⟩ := hitem part
      exact draft.itemsInTurn hvalues hthere member own heffect.belongs
  | additionalItem part member beyond additional =>
      obtain ⟨values, hvalues, hthere⟩ := hitem part
      exact draft.additionalItems hvalues hthere member beyond additional heffect.belongs

end Steps

/-! ## Matches in force -/

section Force
variable (V : Validator) (root : Value) (test : PatternTest) (target : String → Option Value)
  (found : List Match)

/-- The one match hands the other one on. -/
def Leads (m m' : Match) : Prop := m' ∈ found ∧ HandsOn root V.isValid test m m'.handing

/-- Matches that are reached with effect from the first one. -/
inductive InForce : Match → Prop
  | first {m : Match} (head : found.head? = some m) : InForce m
  | handedOn {m m' : Match} (inForce : InForce m) (leads : Leads V root test found m m')
      (effect : HasEffect root test target m m'.handing) : InForce m'

/-- The value at the place is valid under the subschema. -/
def Holds (m : Match) : Prop := V.Accepts (.obj m.members) m.place.node.toValue

/-- No evaluation breaks off: neither that of the document, nor those of the matches and of the
subschemas that decide what they hand on. -/
structure Evaluable (document : Node) : Prop where
  document : (V.violations document.toValue).broken = false
  matched : ∀ m ∈ found, V.accepts? (.obj m.members) m.place.node.toValue ≠ none
  decided : ∀ m ∈ found, ∀ s ∈ deciding m, V.accepts? s m.place.node.toValue ≠ none

instance (m : Match) : Decidable (Holds V m) := inferInstanceAs (Decidable (_ = _))

instance (document : Node) : Decidable (Evaluable V found document) :=
  decidable_of_iff
    ((V.violations document.toValue).broken = false ∧
      (∀ m ∈ found, V.accepts? (.obj m.members) m.place.node.toValue ≠ none) ∧
      ∀ m ∈ found, ∀ s ∈ deciding m, V.accepts? s m.place.node.toValue ≠ none)
    ⟨fun ⟨h, h', h''⟩ => ⟨h, h', h''⟩, fun h => ⟨h.document, h.matched, h.decided⟩⟩

variable {V root test target found} {m : Match}

theorem InForce.mem (h : InForce V root test target found m) : m ∈ found := by
  cases h with
  | first head => exact List.mem_of_mem_head? head
  | handedOn inForce leads effect => exact leads.1

/-- Matches in force belong to the whole schema if the first match does. -/
theorem InForce.belongs (h : InForce V root test target found m)
    (hfirst : ∀ m, found.head? = some m → Belongs root (.obj m.members)) :
    Belongs root (.obj m.members) := by
  cases h with
  | first head => exact hfirst _ head
  | handedOn inForce leads effect => exact effect.belongs

/-- Matches in force hold if the first match does. -/
theorem InForce.holds (draft : V.IsDraft7 root test target)
    (h : InForce V root test target found m) {document : Node}
    (hends : Evaluable V found document)
    (hfirst : ∀ m, found.head? = some m → Belongs root (.obj m.members) ∧ Holds V m) :
    Holds V m := by
  induction h with
  | first head => exact (hfirst _ head).2
  | @handedOn m m' inForce leads effect ih =>
      have hkept := not_refuses_of_handsOn draft (inForce.belongs fun m hm => (hfirst m hm).1) ih
        leads.2 effect (hends.decided _ inForce.mem)
      -- the evaluation ends, and not with a refusal
      obtain ⟨a, ha⟩ := Option.ne_none_iff_exists'.mp (hends.matched m' leads.1)
      cases a with
      | true => exact ha
      | false => exact absurd ha hkept

/-- A match that is not in force lies behind a handing without effect. -/
theorem inForce_or_behind {start : Match} {trail : List Match}
    (htrail : Trail root V.isValid test start trail) (hsub : trail ⊆ found)
    (hhead : found.head? = some start) : ∀ m ∈ trail, InForce V root test target found m ∨
      ∃ m₁ m₂, InForce V root test target found m₁ ∧ Leads V root test found m₁ m₂ ∧
        ¬ HasEffect root test target m₁ m₂.handing ∧
        Relation.ReflTransGen (Leads V root test found) m₂ m := by
  induction htrail with
  | start =>
      intro m hm
      obtain rfl := List.mem_singleton.mp hm
      exact .inl (.first hhead)
  | @visit before last htrail handed new ih =>
      obtain ⟨hlast, hbefore⟩ := List.cons_subset.mp hsub
      intro m hm
      rcases List.mem_cons.mp hm with rfl | hm
      · obtain ⟨m', hm', hin⟩ := handed
        have hleads : Leads V root test found m' m := ⟨hlast, handsOn_of_mem hin⟩
        rcases ih hbefore m' hm' with hforce | ⟨m₁, m₂, hforce, hfirst, hidle, hmore⟩
        · by_cases heffect : HasEffect root test target m' m.handing
          · exact .inl (.handedOn hforce hleads heffect)
          · exact .inr ⟨m', m, hforce, hleads, heffect, .refl⟩
        · exact .inr ⟨m₁, m₂, hforce, hfirst, hidle, hmore.tail hleads⟩
      · exact ih hbefore m hm

end Force

/-! ## Schemas and documents that hand on with effect only -/

/-- The keywords that hand schemas on, references apart. -/
def handingKeywords : List String :=
  ["allOf", "anyOf", "oneOf", "if", "properties", "patternProperties", "additionalProperties",
    "items"]

section Effect
variable {V : Validator} {root : Value} {test : PatternTest} {target : String → Option Value}
  {m : Match} {h : Handing}

/-- What is handed on is the target of a reference, or it comes from one of those keywords. -/
theorem target_or_keyword_of_handsOn {valid : Validity} (hrule : HandsOn root valid test m h) :
    (∃ ref pointer schema, Members.get? m.members "$ref" = some ref ∧
      Pointer.localTarget? ref = some pointer ∧
      Pointer.resolve root pointer = .ok (some schema) ∧ h = ⟨pointer, schema, m.place⟩) ∨
    ∃ keyword ∈ handingKeywords, ∃ v, Members.get? m.members keyword = some v := by
  cases hrule with
  | reference member isLocal leads => exact .inl ⟨_, _, _, member, isLocal, leads, rfl⟩
  | allOf member item => exact .inr ⟨_, by decide, _, member⟩
  | validBranch isBranching member item isValid =>
      rcases isBranching with rfl | rfl
      · exact .inr ⟨_, by decide, _, member⟩
      · exact .inr ⟨_, by decide, _, member⟩
  | anyBranch isBranching member item noneValid =>
      rcases isBranching with rfl | rfl
      · exact .inr ⟨_, by decide, _, member⟩
      · exact .inr ⟨_, by decide, _, member⟩
  | consequent member isValid branch => exact .inr ⟨_, by decide, _, member⟩
  | alternative member isInvalid branch => exact .inr ⟨_, by decide, _, member⟩
  | property part declared =>
      obtain ⟨schemas, member, -⟩ := declared
      exact .inr ⟨_, by decide, _, member⟩
  | patternProperty part fits =>
      obtain ⟨schemas, member, -⟩ := fits
      exact .inr ⟨_, by decide, _, member⟩
  | additionalProperty part undeclared unfitting member => exact .inr ⟨_, by decide, _, member⟩
  | items part member => exact .inr ⟨_, by decide, _, member⟩
  | itemAt part member own => exact .inr ⟨_, by decide, _, member⟩
  | additionalItem part member beyond additional => exact .inr ⟨_, by decide, _, member⟩

/-- A reference of the subschema is literal, and nothing that hands schemas on stands beside it. -/
def RefersAlone (m : Match) : Prop :=
  ∀ ref ∈ (Members.get? m.members "$ref").bind Value.text?,
    IsLiteral ref ∧ ∀ keyword ∈ handingKeywords, Members.get? m.members keyword = none

/-- The patterns of the subschema can be joined for all properties at its place. -/
def JoinsAll (test : PatternTest) (m : Match) : Prop :=
  ∀ p ∈ m.place.children, JoinsPatterns test m.members (p.node.name?.getD "")

/-- The keys of an object, as often as they are written. -/
def keysOf : Node → List String
  | .object _ properties => Members.keys (Node.toMembers properties)
  | _ => []

/-- No object of the document repeats a key. -/
def DistinctKeys (document : Node) : Prop :=
  ∀ p ∈ (Place.root document).walk, (keysOf p.node).Nodup

instance (ref : String) : Decidable (IsLiteral ref) := inferInstanceAs (Decidable (_ ∧ _ ∧ _))

instance (m : Match) : Decidable (RefersAlone m) := inferInstanceAs (Decidable (∀ ref ∈ _, _))

instance (test : PatternTest) (m : Match) : Decidable (JoinsAll test m) :=
  inferInstanceAs (Decidable (∀ p ∈ _, _))

instance (document : Node) : Decidable (DistinctKeys document) :=
  inferInstanceAs (Decidable (∀ p ∈ _, _))

/-- In a document that repeats no key the value of a property counts. -/
theorem counted_of_distinctKeys {document : Node} (hkeys : DistinctKeys document)
    (hplace : m.place ∈ (Place.root document).walk) {name : String} {value : Place}
    (part : IsProperty m.place name value) :
    m.place.node.toValue.get? name = some value.node.toValue := by
  obtain ⟨span, properties, hnode⟩ := part.1
  have hmem := part.mem_toMembers hnode
  have hnodup := hkeys _ hplace
  rw [hnode] at hnodup ⊢
  rw [Node.toValue, Value.get?, Members.get?_ofList]
  exact Members.last?_of_mem (List.nodup_iff_count_le_one.mp hnodup name) hmem

/-- In an undivided schema the branches under a keyword belong to the whole. -/
theorem belongs_of_mem_branchesOf (hundivided : Undivided root)
    (hposition : (m.pointer, Value.obj m.members) ∈ allPositions root) {keyword : String}
    {s : Value} (hs : s ∈ branchesOf m.members keyword) : Belongs root s := by
  cases hget : Members.get? m.members keyword with
  | none => simp [branchesOf, hget] at hs
  | some v =>
      cases v with
      | arr branches =>
          rw [branchesOf_eq hget] at hs
          obtain ⟨index, hindex⟩ := List.mem_iff_getElem?.mp hs
          have htable := mem_allPositions_of_mem_parts hposition (mem_parts_of_get? hget)
          exact hundivided.belongs
            (mem_allPositions_of_mem_parts htable (mem_parts_of_getElem? hindex))
      | _ => simp [branchesOf, hget, Value.items?] at hs

theorem hasEffect_of_refersAlone (draft : V.IsDraft7 root test target) {document : Node}
    (hm : Holds V m) (halone : RefersAlone m) (hundivided : Undivided root)
    (hjoins : JoinsAll test m) (hkeys : DistinctKeys document)
    (hposition : (m.pointer, Value.obj m.members) ∈ allPositions root)
    (hplace : m.place ∈ (Place.root document).walk)
    (hrule : HandsOn root V.isValid test m h) : HasEffect root test target m h where
  referred := by
    intro v hv hne
    obtain ⟨ref, rfl, -⟩ := draft.reference (hundivided.belongs hposition) hm hv hne
    obtain ⟨hliteral, hnothing⟩ := halone ref (by simp [hv, Value.text?])
    rcases target_or_keyword_of_handsOn hrule with
      ⟨w, pointer, schema, hw, hlocal, hresolve, rfl⟩ | ⟨keyword, hkeyword, w, hw⟩
    · cases hv.symm.trans hw
      exact ⟨ref, rfl, draft.literal hundivided hliteral hlocal hresolve, rfl⟩
    · cases (hnothing keyword hkeyword).symm.trans hw
  counted _ part := counted_of_distinctKeys hkeys hplace part
  joined _ name part := by
    obtain ⟨-, p, hp, rfl, -⟩ := part
    exact hjoins p hp
  belongs := hundivided.belongs (mem_allPositions_of_handsOn hposition hrule)
  rivals _ _ _ hs := belongs_of_mem_branchesOf hundivided hposition hs

end Effect

/-! ## Valid documents -/

theorem Trail.getLast?_eq {root : Value} {valid : Validity} {test : PatternTest} {start : Match}
    {trail : List Match} (h : Trail root valid test start trail) :
    trail.getLast? = some start := by
  induction h with
  | start => rfl
  | visit before handed new ih =>
      rw [List.getLast?_cons, ih]
      rfl

/-- Let branches and problems be decided by a validator of draft 7. In a document without problems,
and with no evaluation that breaks off: every match in force holds; a match that does not hold
lies behind a handing without effect; and all matches hold if references stand alone and are
literal, the schema is undivided, its patterns can be joined, and no object repeats a key. -/
theorem matching_holds {V : Validator} {test : PatternTest} {target : String → Option Value}
    {members : Members} {document : Node} {found : List Match}
    (draft : V.IsDraft7 (.obj members) test target)
    (hfound : matchingWith V.isValid test (.obj members) document = .ok found)
    (hproblems : problemsWith V document = []) (hends : Evaluable V found document) :
    (∀ m, InForce V (.obj members) test target found m → Holds V m) ∧
    (∀ m ∈ found, ¬ Holds V m →
      ∃ m₁ m₂, InForce V (.obj members) test target found m₁ ∧
        Leads V (.obj members) test found m₁ m₂ ∧
        ¬ HasEffect (.obj members) test target m₁ m₂.handing ∧
        Relation.ReflTransGen (Leads V (.obj members) test found) m₂ m) ∧
    ((∀ m ∈ found, RefersAlone m) → Undivided (.obj members) → (∀ m ∈ found, JoinsAll test m) →
      DistinctKeys document → ∀ m ∈ found, Holds V m) := by
  obtain ⟨htrail, -⟩ := exists_trail_of_matchingWith V.isValid test members document hfound
  have hpairs := htrail.mem_pairs rfl
  have hhead : found.head? = some (whole members document) := by
    rw [← List.getLast?_reverse]
    exact htrail.getLast?_eq
  have hfirst (m : Match) (hm : found.head? = some m) :
      Belongs (.obj members) (.obj m.members) ∧ Holds V m := by
    obtain rfl : whole members document = m := Option.some.inj (hhead.symm.trans hm)
    refine ⟨.inl rfl, ?_⟩
    have hkept := draft.whole
      (violations_of_problemsWith_nil (draft.telling _) hproblems hends.document)
    obtain ⟨a, ha⟩ := Option.ne_none_iff_exists'.mp
      (hends.matched _ (List.mem_of_mem_head? hhead))
    cases a with
    | true => exact ha
    | false => exact absurd ha hkept
  have hholds (m : Match) (hm : InForce V (.obj members) test target found m) : Holds V m :=
    hm.holds draft hends hfirst
  have hbehind (m : Match) (hm : m ∈ found) (hfails : ¬ Holds V m) :=
    (inForce_or_behind htrail (fun m hm => List.mem_reverse.mp hm) hhead m
      (List.mem_reverse.mpr hm)).resolve_left fun hforce => hfails (hholds m hforce)
  refine ⟨hholds, hbehind, fun halone hundivided hjoins hkeys m hm => ?_⟩
  by_contra hfails
  obtain ⟨m₁, m₂, hforce, hleads, hidle, -⟩ := hbehind m hm hfails
  obtain ⟨hposition, hplace⟩ := hpairs m₁ (List.mem_reverse.mpr hforce.mem)
  apply hidle
  exact hasEffect_of_refersAlone draft (hholds m₁ hforce) (halone m₁ hforce.mem) hundivided
    (hjoins m₁ hforce.mem) hkeys hposition hplace hleads.2

/-- A list of parts with named, matching and other properties and a condition on them. -/
def partList : Members :=
  [("$ref", .str "#/definitions/list"),
    ("definitions", .obj [
      ("list", .obj
        [("type", .str "array"), ("items", .obj [("$ref", .str "#/definitions/part")])]),
      ("part", .obj [
        ("properties", .obj [("name", .obj [("type", .str "string")])]),
        ("patternProperties", .obj [
          ("^n", .obj [("anyOf", .arr [.obj [("type", .str "string")], .bool false])]),
          ("s$", .obj
            [("anyOf", .arr [.obj [("type", .str "string")], .obj [("type", .str "number")]])])]),
        ("additionalProperties", .obj [("type", .str "boolean")]),
        ("if", .obj [("required", .arr [.str "hidden"])]),
        ("then", .obj [("properties", .obj [("hidden", .obj [("const", .bool true)])])]),
        ("else", .obj [("required", .arr [.str "name"])])])])]

/-- Two parts. -/
def twoParts : List Char := "[\x7b\"name\": \"a\", \"s\": 1\x7d, \x7b\"hidden\": true\x7d]".toList

/-- The validator that runs, for the list of parts. -/
def partValidator : Validator := .standard (.obj partList)

theorem matching_holds_parts : ∃ document found, read twoParts = .ok document ∧
    partValidator.IsDraft7 (.obj partList) Pattern.test (target? (.obj partList)) ∧
    matchingWith partValidator.isValid Pattern.test (.obj partList) document = .ok found ∧
    problemsWith partValidator document = [] ∧ Evaluable partValidator found document ∧
    (∀ m ∈ found, RefersAlone m) ∧ Undivided (.obj partList) ∧
    (∀ m ∈ found, JoinsAll Pattern.test m) ∧ DistinctKeys document ∧ found.length = 15 ∧
    ∀ m ∈ found, Holds partValidator m := by
  have hevaluated : ((read twoParts).toOption.bind fun document =>
      (matchingWith partValidator.isValid Pattern.test (.obj partList) document).toOption.map
        fun found => decide ((problemsWith partValidator document).isEmpty = true ∧
          Evaluable partValidator found document ∧ (∀ m ∈ found, RefersAlone m) ∧
          Undivided (.obj partList) ∧ (∀ m ∈ found, JoinsAll Pattern.test m) ∧
          DistinctKeys document ∧ found.length = 15)) = some true := by
    decide +kernel
  have hdraft := isDraft7_standard (.obj partList)
  cases hread : read twoParts with
  | error e =>
      rw [hread] at hevaluated
      cases hevaluated
  | ok document =>
      rw [hread] at hevaluated
      cases hfound : matchingWith partValidator.isValid Pattern.test (.obj partList) document with
      | error e => simp [hfound, Except.toOption] at hevaluated
      | ok found =>
          simp only [hfound, Except.toOption, Option.bind_some, Option.map_some,
            Option.some.injEq, decide_eq_true_eq] at hevaluated
          obtain ⟨hnone, hends, halone, hundivided, hjoins, hkeys, hlength⟩ := hevaluated
          have hproblems := List.isEmpty_iff.mp hnone
          exact ⟨document, found, rfl, hdraft, hfound, hproblems, hends, halone, hundivided, hjoins,
            hkeys, hlength, (matching_holds hdraft hfound hproblems hends).2.2 halone hundivided
              hjoins hkeys⟩

/-! ## A schema beside a reference -/

/-- A reference to a schema that asks nothing, beside a schema for a property. -/
def besideReference : Members :=
  [("$ref", .str "#/definitions/any"),
    ("properties", .obj [("x", .obj [("type", .str "string")])]),
    ("definitions", .obj [("any", .obj [])])]

/-- The document `{"x": 1}`. -/
def numberedProperty : Node :=
  .object ⟨0, 8⟩
    [.property ⟨1, 6⟩ (.scalar ⟨1, 3⟩ (.string "x")) 4 (.scalar ⟨6, 1⟩ (.number (.int 1)))]

theorem not_forall_holds : ¬ ∀ V test target members document found,
    V.IsDraft7 (.obj members) test target →
      matchingWith V.isValid test (.obj members) document = .ok found →
      problemsWith V document = [] → Evaluable V found document → ∀ m ∈ found, Holds V m := by
  intro hall
  let V : Validator := .standard (.obj besideReference)
  have hproblems : problemsWith V numberedProperty = [] := by
    apply List.isEmpty_iff.mp
    decide +kernel
  have hfails : ((matchingWith V.isValid Pattern.test (.obj besideReference)
      numberedProperty).toOption.map fun found =>
        decide (Evaluable V found numberedProperty ∧ ¬ ∀ m ∈ found, Holds V m)) = some true := by
    decide +kernel
  cases hfound : matchingWith V.isValid Pattern.test (.obj besideReference) numberedProperty with
  | error e =>
      rw [hfound] at hfails
      cases hfails
  | ok found =>
      rw [hfound] at hfails
      obtain ⟨hends, hsome⟩ := of_decide_eq_true (Option.some.inj hfails)
      exact hsome (hall V _ _ _ _ found (isDraft7_standard (.obj besideReference)) hfound hproblems
        hends)

end ModAtlas.Schema.Matching
