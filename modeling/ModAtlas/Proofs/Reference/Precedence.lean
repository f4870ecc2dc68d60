import ModAtlas.Proofs.Document.Nesting
import ModAtlas.Proofs.Reference.Sight
import ModAtlas.Proofs.Schema.Closure
import ModAtlas.Proofs.Schema.Precedence

/-!
# Which match decides

The category of a place is settled by the property that it belongs to: among the subschemas that
govern the object of that property the first decides for which a rule reaches the property, and
of its rules the first. What governs other objects has no say.
-/

namespace ModAtlas.Reference
open ModAtlas.Document ModAtlas.Schema ModAtlas.Json

/-! ## Matches of one object -/

/-- The first match for an object that has a tag decides, if all of them lie around the value. -/
theorem Analysis.categoryOf_eq {tags : TagTable} {name : String} {object value : Place}
    {found : List Match}
    (hcovers : ∀ m ∈ found, m.place.same object = true → m.place.span.covers value.span = true) :
    categoryOf tags name object value found =
      (found.filter (·.place.same object)).findSome? fun m => tags.get? m.pointer name := by
  induction found with
  | nil => rfl
  | cons m rest ih =>
      have hrest := ih fun m' hm' => hcovers m' (List.mem_cons_of_mem _ hm')
      rw [categoryOf, List.filter_cons]
      cases hsame : m.place.same object with
      | false => simpa using hrest
      | true =>
          have hinside := hcovers m List.mem_cons_self hsame
          simp only [hinside, Bool.and_self, if_true, List.findSome?_cons, hrest]
          cases tags.get? m.pointer name <;> rfl

/-- Every match is for a place of the document. -/
theorem mem_walk_of_matchingWith {valid : Matching.Validity} {test : Matching.PatternTest}
    {schema : Value} {root : Node} {found : List Match}
    (h : matchingWith valid test schema root = .ok found) {m : Match} (hm : m ∈ found) :
    m.place ∈ (Place.root root).walk := by
  cases schema with
  | obj members =>
      obtain ⟨htrail, -⟩ := Matching.exists_trail_of_matchingWith valid test members root h
      exact (htrail.mem_pairs rfl m (List.mem_reverse.mpr hm)).2
  | _ =>
      obtain rfl : [] = found := by
        simpa [matchingWith, Matching.follow, Matching.fuel, Except.map] using h
      cases hm

namespace Analysis
variable {a : Analysis} {prepared : Prepared} {q property object : Place} {name : String}

theorem classify_of_owner?_none (howner : q.owner? = none) : a.classify q = none := by
  unfold classify
  rw [howner]
  cases a.schema <;> rfl

/-- The category of a place that belongs to a property, as the matches of its object have it. -/
theorem classify_of_owner? (hread : read a.text = .ok a.root) (hschema : a.schema = some prepared)
    (hq : q ∈ a.place.walk) (howner : q.owner? = some property)
    (hname : property.node.name? = some name) (hobject : property.parent? = some object)
    (hmem : object ∈ a.place.walk) (hplaces : ∀ m ∈ a.governing object, m.place ∈ a.place.walk) :
    a.classify q =
      (a.governing object).findSome? fun m => prepared.tags.get? m.pointer name := by
  simp only [classify, hschema, howner, hobject, hname, Option.getD_some]
  refine categoryOf_eq fun m hm hsame => ?_
  have hwalk := hplaces m (List.mem_filter.mpr ⟨hm, hsame⟩)
  rw [Place.eq_of_same hwalk hmem hsame]
  exact covers_of_owner? hread hq howner hobject

end Analysis

/-! ## Every place -/

/-- The category of every place of a document. A place that belongs to no property has none; these
are the keys, the properties and what lies in arrays only. A place that belongs to a property has
the category that the rules give to the property at the first subschema governing its object for
which they give one. All places of a property have the same category, and neither a match for
another object nor a tag at another subschema has any influence on it. All this holds however
branches and patterns are decided. -/
theorem classify_decided {valid : Matching.Validity} {test : Matching.PatternTest}
    {fileName : String} {schema : Value} {prepared : Prepared} {text : List Char} {root : Node}
    {found : List Match} (hprepare : prepare fileName schema = .ok prepared)
    (hread : read text = .ok root)
    (hmatching : matchingWith valid test prepared.schema root = .ok found) :
    ∀ q ∈ (Place.root root).walk,
      (q.owner? = none ↔ q.isKey = true ∨ q.node.kind = .property ∨
        ∀ step ∈ q.way, step.above.kind = .array) ∧
      (q.owner? = none → (Analysis.mk text root (some prepared) found).classify q = none) ∧
      ∀ property, q.owner? = some property → ∃ name object,
        (property.node.name? = some name ∧ property.parent? = some object ∧
          object ∈ (Place.root root).walk ∧ object.node.kind = .object ∧
          property ∈ object.children) ∧
        (Analysis.mk text root (some prepared) found).classify q =
          (found.filter (·.place.same object)).findSome? (fun m =>
            ruledCategory? prepared.schema (rulesFor fileName) m.pointer name) ∧
        (∀ m ∈ found, m.place.same object = true ↔ m.place = object) ∧
        (∀ q' ∈ (Place.root root).walk, q'.owner? = some property →
          (Analysis.mk text root (some prepared) found).classify q' =
            (Analysis.mk text root (some prepared) found).classify q) ∧
        ∀ tags found', found'.filter (·.place.same object) = found.filter (·.place.same object) →
          (∀ m ∈ found, m.place = object →
            TagTable.get? tags m.pointer name = prepared.tags.get? m.pointer name) →
          (Analysis.mk text root (some { prepared with tags }) found').classify q =
            (Analysis.mk text root (some prepared) found).classify q := by
  intro q hq
  refine ⟨Place.owner?_eq_none_iff hread hq, Analysis.classify_of_owner?_none, ?_⟩
  intro property howner
  obtain ⟨name, object, hname, hobject, hmem, hkind, hchild⟩ :=
    Place.exists_object_of_owner? hread hq howner
  have hplaces : ∀ m ∈ found.filter (·.place.same object), m.place ∈ (Place.root root).walk :=
    fun m hm => mem_walk_of_matchingWith hmatching (List.mem_filter.mp hm).1
  have hcategory (q' : Place) (hq' : q' ∈ (Place.root root).walk)
      (howner' : q'.owner? = some property) :
      (Analysis.mk text root (some prepared) found).classify q' =
        (found.filter (·.place.same object)).findSome?
          fun m => prepared.tags.get? m.pointer name :=
    Analysis.classify_of_owner? (a := ⟨text, root, some prepared, found⟩) hread rfl hq' howner'
      hname hobject hmem hplaces
  have hsame (m : Match) (hm : m ∈ found) : m.place.same object = true ↔ m.place = object := by
    constructor
    · exact Place.eq_of_same (mem_walk_of_matchingWith hmatching hm) hmem
    · rintro rfl
      exact beq_self_eq_true _
  refine ⟨name, object, ⟨hname, hobject, hmem, hkind, hchild⟩, ?_, hsame, ?_, ?_⟩
  · rw [hcategory q hq howner]
    congr 1
    funext m
    exact get?_tagsOf (eq_of_prepare hprepare) m.pointer name
  · intro q' hq' howner'
    rw [hcategory q' hq' howner', hcategory q hq howner]
  · intro tags found' hgoverning htags
    have hcategory' := Analysis.classify_of_owner?
      (a := ⟨text, root, some { prepared with tags }, found'⟩) hread rfl hq howner hname hobject
      hmem (by rwa [Analysis.governing, hgoverning])
    rw [hcategory', hcategory q hq howner, Analysis.governing, hgoverning]
    simp only [← List.head?_filterMap]
    congr 1
    apply List.filterMap_congr
    intro m hm
    obtain ⟨hfound, hplace⟩ := List.mem_filter.mp hm
    exact htags m hfound ((hsame m hfound).mp hplace)

/-! ## A name in two places -/

/-- A schema with a name below the interface and below a weapon. -/
def namesSchema : Value :=
  .obj [("properties", .obj [
    ("user_interface", .obj [("properties", .obj [("name", .obj [])])]),
    ("weapon", .obj [("properties", .obj [("name", .obj [])])])])]

/-- A document with both names. -/
def namesText : List Char :=
  ("\x7b\"weapon\": \x7b\"name\": \"gun\"\x7d, " ++
    "\"user_interface\": \x7b\"name\": [\"title\"]\x7d\x7d").toList

/-- The schema, prepared for units. -/
def namesPrepared : Prepared :=
  ((prepare "unit-schema.json" namesSchema).toOption).getD default

/-- The tree of the document. -/
def namesRoot : Node := ((read namesText).toOption).getD default

/-- How branches are decided for the schema; there are none. -/
def namesValid : Matching.Validity := (Validation.Validator.standard namesPrepared.schema).isValid

/-- The matches of the document. -/
def namesFound : List Match :=
  ((matchingWith namesValid Pattern.test namesPrepared.schema namesRoot).toOption).getD []

/-- The first place of a string in the document. -/
def namesPlace (s : String) : Place :=
  ((Place.root namesRoot).walk.find? (·.node.text? == some s)).getD default

/-- The name below the interface is in the scope of a rule, the name of the weapon is not, and a
key belongs to no property. -/
theorem classify_decided_names :
    prepare "unit-schema.json" namesSchema = .ok namesPrepared ∧
      read namesText = .ok namesRoot ∧
      matchingWith namesValid Pattern.test namesPrepared.schema namesRoot = .ok namesFound ∧
      let a : Analysis := ⟨namesText, namesRoot, some namesPrepared, namesFound⟩
      (namesPlace "title" ∈ (Place.root namesRoot).walk ∧
        a.classify (namesPlace "title") = some .localizedText) ∧
      (namesPlace "gun" ∈ (Place.root namesRoot).walk ∧ a.classify (namesPlace "gun") = none) ∧
      namesPlace "name" ∈ (Place.root namesRoot).walk ∧ a.classify (namesPlace "name") = none := by
  have hprepare : prepare "unit-schema.json" namesSchema = .ok namesPrepared :=
    eq_ok_of_isSome (by decide +kernel)
  have hread : read namesText = .ok namesRoot := eq_ok_of_isSome (by decide +kernel)
  have hmatching : matchingWith namesValid Pattern.test namesPrepared.schema namesRoot =
      .ok namesFound := eq_ok_of_isSome (by decide +kernel)
  have hmem (s : String)
      (hs : ((Place.root namesRoot).walk.find? (·.node.text? == some s)).isSome = true) :
      namesPlace s ∈ (Place.root namesRoot).walk := by
    obtain ⟨p, hp⟩ := Option.isSome_iff_exists.mp hs
    rw [namesPlace, hp]
    exact List.mem_of_find?_eq_some hp
  have hdecided (s : String) (hs : namesPlace s ∈ (Place.root namesRoot).walk)
      (howner : (namesPlace s).owner?.isSome = true) :
      (Analysis.mk namesText namesRoot (some namesPrepared) namesFound).classify (namesPlace s) =
        (namesFound.filter (·.place.same
          (((namesPlace s).owner?.bind Place.parent?).getD default))).findSome? fun m =>
            ruledCategory? namesPrepared.schema (rulesFor "unit-schema.json") m.pointer
              (((namesPlace s).owner?.bind (·.node.name?)).getD "") := by
    obtain ⟨property, hproperty⟩ := Option.isSome_iff_exists.mp howner
    obtain ⟨name, object, ⟨hname, hobject, -⟩, hcategory, -⟩ :=
      (classify_decided hprepare hread hmatching _ hs).2.2 property hproperty
    rw [hcategory, hproperty, Option.bind_some, Option.bind_some, hname, hobject]
    rfl
  have htitle := hmem "title" (by decide +kernel)
  have hgun := hmem "gun" (by decide +kernel)
  have hkey := hmem "name" (by decide +kernel)
  refine ⟨hprepare, hread, hmatching, ⟨htitle, ?_⟩, ⟨hgun, ?_⟩, hkey, ?_⟩
  · rw [hdecided "title" htitle (by decide +kernel)]
    decide +kernel
  · rw [hdecided "gun" hgun (by decide +kernel)]
    decide +kernel
  · exact (classify_decided hprepare hread hmatching _ hkey).2.1 (by decide +kernel)

end ModAtlas.Reference
