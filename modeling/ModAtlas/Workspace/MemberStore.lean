import ModAtlas.Files.Finder
import ModAtlas.Reference.Category

/-!
# Members of categories

The valid values of every reference category and, where members are read from files of their own,
the file behind each. `load` reads one category; `populate` loads several, each of which replaces
only its own members. A category that cannot be loaded ends up without members.

## Implementation notes

Members are a set, kept as a sorted list without repetitions. Located files of a category change
only when its load finds some or fails.
-/

namespace ModAtlas.Workspace
open ModAtlas.Files ModAtlas.Reference ModAtlas.Text

/-- The members of each category, sorted, and the files of members. -/
structure MemberStore where
  members : Category → List String
  located : Category → List (String × String)
deriving Inhabited

/-- What loading a category finds. -/
structure Loaded where
  members : List String
  located : List (String × String)
deriving DecidableEq, Repr

/-! ## Loading -/

/-- Adds the file of a member unless the member has one. -/
def locateFirst (member path : String) (located : List (String × String)) :
    List (String × String) :=
  if (located.lookup member).isSome then located else located ++ [(member, path)]

/-- The names under which a file with the suffix is a member. -/
def memberNames (suffix : String) (keepName : Bool) (path : String) : List String :=
  let name := fileName path
  let stem := if endsWith name.toList suffix.toList then
      String.ofList (name.toList.take (name.length - suffix.length))
    else name
  if keepName then [stem, name] else [stem]

/-- Every file with the suffix is a member; of several files of one member the first counts. -/
def loadFiles (t : Tree) (finder : Finder) (root suffix : String) (keepName : Bool) :
    Except ReadError Loaded :=
  match finder.find t root suffix with
  | .error e => .error (.file e)
  | .ok paths =>
    let named := paths.flatMap fun p => (memberNames suffix keepName p).map (·, p)
    .ok ⟨sortedDistinct (named.map (·.1)),
      named.foldl (fun located m => locateFirst m.1 m.2 located) []⟩

/-- The strings that the manifest of a kind lists as `ids`; no manifest and no list mean none. -/
def loadManifest (t : Tree) (finder : Finder) (root kind : String) : Except ReadError Loaded :=
  let name := manifestFile kind
  match finder.find t root name with
  | .error e => .error (.file e)
  | .ok paths =>
    match pickNamed paths name with
    | none => .ok ⟨[], []⟩
    | some path =>
      (readJsonObject t (Path.ofString path)).map fun content =>
        let ids := ((Json.Members.get? content "ids").bind Json.Value.items?).getD []
        ⟨sortedDistinct (ids.filterMap Json.Value.text?), []⟩

/-- The keys of the localized text file of a language; the file is located under the language. -/
def loadLocalizedKeys (t : Tree) (finder : Finder) (root language : String) :
    Except ReadError Loaded :=
  let name := localizedFile language
  match finder.find t root name with
  | .error e => .error (.file e)
  | .ok paths =>
    match pickNamed paths name with
    | none => .ok ⟨[], []⟩
    | some path =>
      (readJsonObject t (Path.ofString path)).map fun content =>
        ⟨sortedDistinct (Json.Members.keys content), [(language, path)]⟩

/-- The members of one category in a workspace. -/
def load (t : Tree) (finder : Finder) (root language : String) (category : Category) :
    Except ReadError Loaded :=
  match category.source with
  | .files suffix keepName => loadFiles t finder root suffix keepName
  | .manifest kind => loadManifest t finder root kind
  | .localizedKeys => loadLocalizedKeys t finder root language

namespace MemberStore

/-- No members. -/
def empty : MemberStore := ⟨fun _ => [], fun _ => []⟩

/-- Is a value a member of the category? -/
def contains (s : MemberStore) (category : Category) (value : String) : Bool :=
  (s.members category).contains value

/-- How many members the categories have together. -/
def sizeTotal (s : MemberStore) : Nat :=
  Category.all.foldl (fun size c => size + (s.members c).length) 0

/-- The file that a member was read from. -/
def locate (s : MemberStore) (category : Category) (member : String) : Option String :=
  (s.located category).lookup member

/-- Replaces the members of a category. -/
def setMembers (s : MemberStore) (category : Category) (values : List String) : MemberStore :=
  { s with members := fun c => if c = category then sortedDistinct values else s.members c }

/-- Replaces the located files of a category. -/
def setLocated (s : MemberStore) (category : Category) (located : List (String × String)) :
    MemberStore :=
  { s with located := fun c => if c = category then located else s.located c }

/-- Takes over what loading a category gave. -/
def install (s : MemberStore) (category : Category) : Except ReadError Loaded → MemberStore
  | .error _ => (s.setMembers category []).setLocated category []
  | .ok found =>
    let s := s.setMembers category found.members
    if found.located.isEmpty then s else s.setLocated category found.located

/-- The categories that are loaded when some are asked for: those, or all when none is named. -/
def requested (categories : List Category) : List Category :=
  if categories.isEmpty then Category.all else categories

/-- Loads categories one after the other. -/
def populate (s : MemberStore) (t : Tree) (finder : Finder) (root language : String)
    (categories : List Category) : MemberStore :=
  categories.foldl (fun s c => s.install c (load t finder root language c)) s

end MemberStore
end ModAtlas.Workspace
