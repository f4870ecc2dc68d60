import ModAtlas.Proofs.Document.Ranges
import ModAtlas.Proofs.Schema.Enumeration
import ModAtlas.Proofs.Schema.Tagging
import ModAtlas.Reference.Classification

/-!
# What tagging sees of a matched document

Tags are found by one way through a schema and matches by another. A match whose subschema both
ways come to has the tags of the rules for the whole schema, and the values of its tagged
properties are classified. Out of sight are subschemas under property names and patterns that are
data keys, and targets of references that are not written as the enumeration writes pointers.
-/

namespace ModAtlas.Reference
open ModAtlas.Document ModAtlas.Schema ModAtlas.Json

/-! ## Going up -/

/-- The place directly above another one lies around it. -/
theorem exists_parent_covers {text : List Char} {root : Node} (h : read text = .ok root)
    {q : Place} {step : Step} {rest : List Step} (hq : q ∈ (Place.root root).walk)
    (hway : q.way = step :: rest) :
    ⟨step.above, rest⟩ ∈ (Place.root root).walk ∧
      (Place.span ⟨step.above, rest⟩).covers q.span = true := by
  rcases Place.eq_or_mem_children_of_mem_walk hq with rfl | ⟨p, hp, hqp⟩
  · cases hway
  · have hcovers := (faithful_of_mem_walk h hp).inside q hqp
    obtain ⟨j, n, -, rfl⟩ := Place.mem_children.mp hqp
    obtain ⟨rfl, rfl⟩ := List.cons.inj hway
    exact ⟨hp, hcovers⟩

theorem covers_trans {s t u : Span} (hst : s.covers t = true) (htu : t.covers u = true) :
    s.covers u = true := by
  rw [Place.covers_iff] at *
  omega

/-- The property that a place belongs to lies around it. -/
theorem covers_of_propertyAbove {text : List Char} {root : Node} (h : read text = .ok root)
    {q property : Place} (hq : q ∈ (Place.root root).walk)
    (habove : Place.propertyAbove q.way = some property) :
    property ∈ (Place.root root).walk ∧ property.span.covers q.span = true := by
  -- up the way: an array hands the question on, and its parent lies around it
  induction hway : q.way generalizing q with
  | nil =>
      rw [hway] at habove
      cases habove
  | cons step rest ih =>
      obtain ⟨hp, hcovers⟩ := exists_parent_covers h hq hway
      rw [hway, Place.propertyAbove] at habove
      split at habove
      · cases habove
        exact ⟨hp, hcovers⟩
      · cases habove
      · obtain ⟨hproperty, houter⟩ := ih hp habove rfl
        exact ⟨hproperty, covers_trans houter hcovers⟩

/-- The object of the property that a place belongs to lies around the place. -/
theorem covers_of_owner? {text : List Char} {root : Node} (hread : read text = .ok root)
    {q property object : Place} (hq : q ∈ (Place.root root).walk)
    (howner : q.owner? = some property) (hobject : property.parent? = some object) :
    object.span.covers q.span = true := by
  have habove : Place.propertyAbove q.way = some property := by
    unfold Place.owner? at howner
    split at howner
    · cases howner
    · exact howner
  obtain ⟨hproperty, hinner⟩ := covers_of_propertyAbove hread hq habove
  unfold Place.parent? at hobject
  split at hobject
  · cases hobject
  · rename_i step rest hway
    rw [← Option.some.inj hobject]
    exact covers_trans (exists_parent_covers hread hproperty hway).2 hinner

namespace Analysis

theorem categoryOf_ne_none {tags : TagTable} {name : String} {object value : Place}
    {found : List Match} {m : Match} (hm : m ∈ found) (hsame : m.place.same object = true)
    (hcovers : m.place.span.covers value.span = true) (htag : tags.Has m.pointer name) :
    categoryOf tags name object value found ≠ none := by
  induction found with
  | nil => cases hm
  | cons first rest ih =>
      rw [categoryOf]
      rcases List.mem_cons.mp hm with rfl | hm
      · obtain ⟨c, hc⟩ := Option.isSome_iff_exists.mp htag
        rw [if_pos (by simp [hsame, hcovers]), hc]
        exact Option.some_ne_none c
      · split
        · split
          · exact Option.some_ne_none _
          · exact ih hm
        · exact ih hm

/-- The values of a property that a tag of a match is for are classified. -/
theorem classify_ne_none {a : Analysis} {prepared : Prepared} {m : Match} {q property : Place}
    {name : String} (hread : read a.text = .ok a.root) (hschema : a.schema = some prepared)
    (hm : m ∈ a.found) (htag : prepared.tags.Has m.pointer name) (hq : q ∈ a.place.walk)
    (howner : q.owner? = some property) (hname : property.node.name? = some name)
    (hobject : property.parent? = some m.place) : a.classify q ≠ none := by
  have hcovers : m.place.span.covers q.span = true := covers_of_owner? hread hq howner hobject
  have hsame : m.place.same m.place = true := beq_self_eq_true _
  simp only [classify, hschema, howner, hobject, hname, Option.getD_some]
  exact categoryOf_ne_none hm hsame hcovers htag

end Analysis

/-! ## Matches in sight -/

theorem eq_of_prepare {fileName : String} {schema : Value} {prepared : Prepared}
    (h : prepare fileName schema = .ok prepared) :
    tagsOf prepared.schema (rulesFor fileName) = .ok prepared.tags := by
  unfold prepare at h
  split at h
  · cases h
  · split at h
    · cases h
    · rename_i tags htags
      cases h
      exact htags

/-- All matches of a prepared schema are in sight exactly when none is named as data and the
targets of references are in sight; a target is when its reference is written as the enumeration
writes pointers. For a match in sight each rule for the whole schema has its tag where the match
declares the property, and the values of that property are classified. All this holds however
branches and patterns are decided. -/
theorem matches_isSeen {valid : Matching.Validity} {test : Matching.PatternTest}
    {fileName : String} {schema : Value} {prepared : Prepared} {text : List Char} {root : Node}
    {found : List Match} (hprepare : prepare fileName schema = .ok prepared)
    (hread : read text = .ok root)
    (hmatching : matchingWith valid test prepared.schema root = .ok found) :
    ((∀ m ∈ found, m.IsSeen prepared.schema) ↔
      (∀ m ∈ found, ¬ m.IsNamedAsData found) ∧
        ∀ m ∈ found, m.IsReferred prepared.schema found → m.IsSeen prepared.schema) ∧
    (∀ m ∈ found, m.IsReferred prepared.schema found → Pointer.IsPlain m.pointer →
      m.IsSeen prepared.schema) ∧
    ∀ m ∈ found, m.IsSeen prepared.schema → ∀ rule ∈ rulesFor fileName, rule.scope = "" →
      ∀ properties, declared? m.members = some properties →
        Members.has properties rule.name = true →
        prepared.tags.Has m.pointer rule.name ∧
          ∀ q ∈ (Place.root root).walk, ∀ property, q.owner? = some property →
            property.node.name? = some rule.name → property.parent? = some m.place →
            (Analysis.mk text root (some prepared) found).classify q ≠ none := by
  refine ⟨Matching.forall_isSeen_iff hmatching,
    fun m _ hreferred => Matching.isSeen_of_isReferred hreferred, ?_⟩
  intro m hm hseen rule hrule hscope properties hdeclared hhas
  have hsub : (⟨m.pointer, m.members⟩ : Subschema) ∈ subschemas "" prepared.schema := hseen
  have htag : prepared.tags.Has m.pointer rule.name :=
    has_tagsOf (eq_of_prepare hprepare) hsub hrule hscope hdeclared hhas
  refine ⟨htag, fun q hq property howner hname hobject => ?_⟩
  exact Analysis.classify_ne_none (a := ⟨text, root, some prepared, found⟩) hread rfl hm htag hq
    howner hname hobject

/-! ## An icon below a property -/

/-- A schema with an icon below one property. -/
def iconSchema (name : String) : Value :=
  .obj [("properties", .obj [(name, .obj [("properties", .obj [("icon",
    .obj [("type", .str "string")])])])])]

/-- A document that has the icon below the property. -/
def iconText (name : String) : List Char :=
  ("\x7b\"" ++ name ++ "\": \x7b\"icon\": \"x\"\x7d\x7d").toList

/-- The schema, prepared for units. -/
def iconPrepared (name : String) : Prepared :=
  ((prepare "unit-schema.json" (iconSchema name)).toOption).getD default

/-- The tree of the document. -/
def iconRoot (name : String) : Node := ((read (iconText name)).toOption).getD default

/-- The matches of the document. -/
def iconFound (valid : Matching.Validity) (test : Matching.PatternTest) (name : String) :
    List Match :=
  ((matchingWith valid test (iconPrepared name).schema (iconRoot name)).toOption).getD []

theorem eq_ok_of_isSome {ε α : Type} {x : Except ε α} {d : α}
    (h : x.toOption.isSome = true) : x = .ok (x.toOption.getD d) := by
  cases x with
  | error e => cases h
  | ok a => rfl

/-- What lies below the property in the schema. -/
def iconMembers : Members := [("properties", .obj [("icon", .obj [("type", .str "string")])])]

theorem matches_isSeen_body :
    let valid := (Validation.Validator.standard (iconPrepared "body").schema).isValid
    let found := iconFound valid Pattern.test "body"
    prepare "unit-schema.json" (iconSchema "body") = .ok (iconPrepared "body") ∧
      read (iconText "body") = .ok (iconRoot "body") ∧
      matchingWith valid Pattern.test (iconPrepared "body").schema (iconRoot "body") = .ok found ∧
      ∃ m ∈ found, m.pointer = "/properties/body" ∧
        (iconPrepared "body").tags.Has m.pointer "icon" ∧
          ∀ q ∈ (Place.root (iconRoot "body")).walk, ∀ property, q.owner? = some property →
            property.node.name? = some "icon" → property.parent? = some m.place →
            (Analysis.mk (iconText "body") (iconRoot "body") (some (iconPrepared "body"))
              found).classify q ≠ none := by
  intro valid found
  have hprepare : prepare "unit-schema.json" (iconSchema "body") = .ok (iconPrepared "body") :=
    eq_ok_of_isSome (by decide +kernel)
  have hread : read (iconText "body") = .ok (iconRoot "body") :=
    eq_ok_of_isSome (by decide +kernel)
  have hmatching : matchingWith valid Pattern.test (iconPrepared "body").schema
      (iconRoot "body") = .ok found := eq_ok_of_isSome (by decide +kernel)
  obtain ⟨place, hsecond⟩ : ∃ place, found[1]? =
      some ⟨"/properties/body", iconMembers, place⟩ := ⟨_, rfl⟩
  have hm := List.mem_of_getElem? hsecond
  have hseen : (subschemas "" (iconPrepared "body").schema)[2]? =
      some ⟨"/properties/body", iconMembers⟩ := rfl
  obtain ⟨-, -, htagged⟩ := matches_isSeen hprepare hread hmatching
  have hclassified := htagged _ hm (List.mem_of_getElem? hseen) ⟨"icon", .brush, ""⟩
    (by decide +kernel) rfl [("icon", .obj [("type", .str "string")])] rfl (by decide +kernel)
  exact ⟨hprepare, hread, hmatching, _, hm, rfl, hclassified⟩

/-- However branches and patterns are decided, a property with the name of a data key hides what
lies below it from tagging. -/
theorem not_forall_isSeen :
    ¬ ∃ valid test, ∀ fileName schema prepared text root found,
      prepare fileName schema = .ok prepared → read text = .ok root →
      matchingWith valid test prepared.schema root = .ok found →
      ∀ m ∈ found, m.IsSeen prepared.schema := by
  rintro ⟨valid, test, hall⟩
  have hprepare : prepare "unit-schema.json" (iconSchema "default") =
      .ok (iconPrepared "default") := eq_ok_of_isSome (by decide +kernel)
  have hread : read (iconText "default") = .ok (iconRoot "default") :=
    eq_ok_of_isSome (by decide +kernel)
  have hmatching : matchingWith valid test (iconPrepared "default").schema (iconRoot "default") =
      .ok (iconFound valid test "default") := eq_ok_of_isSome rfl
  have hpointers : (iconFound valid test "default").map (·.pointer) =
      ["", "/properties/default", "/properties/default/properties/icon"] := rfl
  have hpointer : "/properties/default" ∈ (iconFound valid test "default").map (·.pointer) := by
    rw [hpointers]
    exact .tail _ (.head _)
  have hhidden : "/properties/default" ∉
      (subschemas "" (iconPrepared "default").schema).map (·.pointer) := by decide +kernel
  obtain ⟨m, hm, hmpointer⟩ := List.mem_map.mp hpointer
  have hseen := hall _ _ _ _ _ _ hprepare hread hmatching m hm
  exact hhidden (List.mem_map.mpr ⟨_, hseen, hmpointer⟩)

end ModAtlas.Reference
