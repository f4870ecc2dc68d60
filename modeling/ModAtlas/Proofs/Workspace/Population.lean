import ModAtlas.Workspace.MemberStore
import ModAtlas.Proofs.Text.Piece

/-!
# Populating categories

Populating gives every category asked for the members that its load found, whatever was in the
store before. The files of members are another matter: a load settles them if it found files or
failed. A load that finds no files at all leaves the files that an earlier one found.
-/

namespace ModAtlas.Workspace
open ModAtlas.Files ModAtlas.Reference ModAtlas.Text

theorem sortedDistinct_nil : sortedDistinct [] = [] := by
  refine List.eq_nil_iff_forall_not_mem.mpr fun x hx => ?_
  simpa using mem_sortedDistinct.mp hx

/-! ## What one load leaves -/

/-- The members that a load gives to its category. -/
def loadedMembers : Except ReadError Loaded → List String
  | .ok found => sortedDistinct found.members
  | .error _ => []

/-- The files of members that a load found. -/
def loadedFiles : Except ReadError Loaded → List (String × String)
  | .ok found => found.located
  | .error _ => []

/-- A load settles the files of its category: it found some, or it failed. -/
def Settles : Except ReadError Loaded → Prop
  | .ok found => found.located ≠ []
  | .error _ => True

instance (loaded : Except ReadError Loaded) : Decidable (Settles loaded) :=
  match loaded with
  | .ok found => inferInstanceAs (Decidable (found.located ≠ []))
  | .error _ => inferInstanceAs (Decidable True)

theorem loadedFiles_of_not_settles {loaded : Except ReadError Loaded} (h : ¬ Settles loaded) :
    loadedFiles loaded = [] := by
  cases loaded with
  | error e => exact absurd trivial h
  | ok found => exact Classical.not_not.mp h

/-- Stores with the same members and the same files are the same. -/
@[ext] theorem MemberStore.ext {s s' : MemberStore} (members : ∀ c, s.members c = s'.members c)
    (located : ∀ c, s.located c = s'.located c) : s = s' := by
  obtain ⟨m, l⟩ := s
  obtain ⟨m', l'⟩ := s'
  obtain rfl : m = m' := funext members
  obtain rfl : l = l' := funext located
  rfl

namespace MemberStore
variable (s : MemberStore) (c c' : Category) (loaded : Except ReadError Loaded)

theorem install_members :
    (s.install c loaded).members c' = if c' = c then loadedMembers loaded else s.members c' := by
  cases loaded with
  | error e => simp [install, setMembers, setLocated, loadedMembers, sortedDistinct_nil]
  | ok found =>
      simp only [install]
      split <;> simp [setMembers, setLocated, loadedMembers]

theorem install_located :
    (s.install c loaded).located c' =
      if c' = c ∧ Settles loaded then loadedFiles loaded else s.located c' := by
  cases loaded with
  | error e => simp [install, setMembers, setLocated, loadedFiles, Settles]
  | ok found =>
      simp only [install, List.isEmpty_iff]
      split
      · rename_i hnone
        simp [setMembers, Settles, hnone]
      · rename_i hsome
        simp [setMembers, setLocated, loadedFiles, Settles, hsome]

/-! ## What populating leaves -/

variable (t : Tree) (finder : Finder) (root language : String) (categories : List Category)

theorem populate_members :
    (s.populate t finder root language categories).members c =
      if c ∈ categories then loadedMembers (load t finder root language c) else s.members c := by
  induction categories generalizing s with
  | nil => rfl
  | cons d rest ih =>
      change ((s.install d (load t finder root language d)).populate t finder root language
        rest).members c = _
      rw [ih, install_members]
      by_cases hd : c = d
      · subst hd
        simp
      · simp [hd]

theorem populate_located :
    (s.populate t finder root language categories).located c =
      if c ∈ categories ∧ Settles (load t finder root language c) then
        loadedFiles (load t finder root language c)
      else s.located c := by
  induction categories generalizing s with
  | nil => simp [populate]
  | cons d rest ih =>
      change ((s.install d (load t finder root language d)).populate t finder root language
        rest).located c = _
      rw [ih, install_located]
      by_cases hd : c = d
      · subst hd
        by_cases hsettles : Settles (load t finder root language c) <;> simp [hsettles]
      · simp [hd]

end MemberStore

/-! ## Files of members -/

theorem lookup_locateFirst {member path m : String} {located : List (String × String)} :
    ((locateFirst member path located).lookup m).isSome ↔
      m = member ∨ (located.lookup m).isSome := by
  unfold locateFirst
  split
  · rename_i hhas
    constructor
    · exact .inr
    · rintro (rfl | h)
      · exact hhas
      · exact h
  · rw [List.lookup_append]
    cases hm : located.lookup m with
    | some path' => simp
    | none =>
        by_cases heq : m = member
        · simp [heq]
        · have hne : (m == member) = false := by simpa using heq
          simp [List.lookup_cons, hne, heq]

theorem lookup_foldl_locateFirst {m : String} {named located : List (String × String)} :
    ((named.foldl (fun located p => locateFirst p.1 p.2 located) located).lookup m).isSome ↔
      m ∈ named.map (·.1) ∨ (located.lookup m).isSome := by
  induction named generalizing located with
  | nil => simp
  | cons p rest ih =>
      rw [List.foldl_cons, ih, lookup_locateFirst, List.map_cons, List.mem_cons, or_left_comm,
        or_assoc]

section Suffixes
variable {t : Tree} {finder : Finder} {root language suffix : String} {keepName : Bool}
  {category : Category}

/-- Files with a suffix are located under exactly the names by which they are members. -/
theorem isSome_lookup_loadFiles {found : Loaded}
    (h : loadFiles t finder root suffix keepName = .ok found) (m : String) :
    (found.located.lookup m).isSome ↔ m ∈ found.members := by
  unfold loadFiles at h
  split at h
  · cases h
  · cases h
    rw [mem_sortedDistinct, lookup_foldl_locateFirst]
    simp

theorem isSome_lookup_loadedFiles (source : category.source = .files suffix keepName)
    (m : String) :
    ((loadedFiles (load t finder root language category)).lookup m).isSome ↔
      m ∈ loadedMembers (load t finder root language category) := by
  cases hload : load t finder root language category with
  | error e => simp [loadedFiles, loadedMembers]
  | ok found =>
      simp only [load, source] at hload
      rw [loadedFiles, loadedMembers, mem_sortedDistinct]
      exact isSome_lookup_loadFiles hload m

/-- Where no files with a suffix were found, there are no members either. -/
theorem loadedMembers_of_not_settles (source : category.source = .files suffix keepName)
    (h : ¬ Settles (load t finder root language category)) :
    loadedMembers (load t finder root language category) = [] := by
  refine List.eq_nil_iff_forall_not_mem.mpr fun m hm => ?_
  have hfound := (isSome_lookup_loadedFiles source m).mpr hm
  rw [loadedFiles_of_not_settles h] at hfound
  cases hfound

end Suffixes

/-! ## Full replacement -/

namespace MemberStore
variable (t : Tree) (finder : Finder) (root language : String) {categories : List Category}
  {c : Category}

theorem locate_populate (s : MemberStore) (hc : c ∈ categories) (m : String) :
    (s.populate t finder root language categories).locate c m =
      if Settles (load t finder root language c) then
        (loadedFiles (load t finder root language c)).lookup m
      else s.locate c m := by
  rw [locate, populate_located]
  by_cases h : Settles (load t finder root language c) <;> simp [hc, h, locate]

/-- A category asked for has the members that its load found, whatever was in the store before.
Where its members are located is replaced as well exactly if the load settles it: if not, every
file located before stays so, and two stores that differed there still do. A category known by a
suffix then locates others than its members if it located any before. -/
theorem populate_replaces_iff (hc : c ∈ categories) (s s' : MemberStore) :
    (s.populate t finder root language categories).members c =
        loadedMembers (load t finder root language c) ∧
      (s'.populate t finder root language categories).members c =
        loadedMembers (load t finder root language c) ∧
      ((∀ m, (s.populate t finder root language categories).locate c m =
          (s'.populate t finder root language categories).locate c m) ↔
        Settles (load t finder root language c) ∨ ∀ m, s.locate c m = s'.locate c m) ∧
      ∀ suffix keepName, c.source = .files suffix keepName →
        ((∀ m, ((s.populate t finder root language categories).locate c m).isSome ↔
            m ∈ (s.populate t finder root language categories).members c) ↔
          Settles (load t finder root language c) ∨ ∀ m, s.locate c m = none) := by
  have hmembers (s : MemberStore) : (s.populate t finder root language categories).members c =
      loadedMembers (load t finder root language c) := by
    rw [populate_members, if_pos hc]
  refine ⟨hmembers s, hmembers s', ?_, ?_⟩
  · simp only [locate_populate t finder root language _ hc]
    by_cases hsettles : Settles (load t finder root language c) <;> simp [hsettles]
  · intro suffix keepName source
    simp only [locate_populate t finder root language _ hc, hmembers s]
    by_cases hsettles : Settles (load t finder root language c)
    · simp only [hsettles, if_true, true_or, iff_true]
      exact isSome_lookup_loadedFiles source
    · simp [hsettles, loadedMembers_of_not_settles source hsettles]

/-! ## A folder without files -/

/-- A folder with a texture, and a folder without any file. -/
def textureTree : Tree where
  root := .folder .full [("full", .folder .full [("a.dds", .file [])]), ("bare", .emptyFolder)]
  workingFolder := .ofString "/"

/-- The store after populating from one of the two folders. -/
def withTextures (s : MemberStore) (root : String) : MemberStore :=
  s.populate textureTree (.ofDepth 5) root "en" [.texture]

/-- A store that was populated from the folder with the texture and an empty one, populated from
the folder without files. -/
theorem populate_replaces_iff_bare :
    let full := MemberStore.empty.withTextures "/full"
    Category.texture ∈ [Category.texture] ∧
      ((full.withTextures "/bare").members .texture = [] ∧
        (MemberStore.empty.withTextures "/bare").members .texture = []) ∧
      ¬ Settles (load textureTree (.ofDepth 5) "/bare" "en" .texture) ∧
      (¬ ∀ m, (full.withTextures "/bare").locate .texture m =
        (MemberStore.empty.withTextures "/bare").locate .texture m) ∧
      ¬ ∀ m, ((full.withTextures "/bare").locate .texture m).isSome ↔
        m ∈ (full.withTextures "/bare").members .texture := by
  intro full
  have hc : Category.texture ∈ [Category.texture] := by decide
  obtain ⟨hfull, hempty, hsame, hexact⟩ := populate_replaces_iff textureTree (.ofDepth 5) "/bare"
    "en" hc full .empty
  have hload : loadedMembers (load textureTree (.ofDepth 5) "/bare" "en" .texture) = [] := by
    decide +kernel
  have hsettles : ¬ Settles (load textureTree (.ofDepth 5) "/bare" "en" .texture) := by
    decide +kernel
  have hbefore : full.locate .texture "a" = some "/full/a.dds" := by decide +kernel
  refine ⟨hc, ⟨hfull.trans hload, hempty.trans hload⟩, hsettles, ?_, ?_⟩
  · intro h
    have heq := (hsame.mp h).resolve_left hsettles "a"
    rw [hbefore] at heq
    cases heq
  · intro h
    have hnone := ((hexact ".dds" true rfl).mp h).resolve_left hsettles "a"
    rw [hbefore] at hnone
    cases hnone

theorem not_forall_locate_populate : ¬ ∀ (s s' : MemberStore) (m : String),
    (s.withTextures "/bare").locate .texture m = (s'.withTextures "/bare").locate .texture m := by
  intro h
  have heq := h (MemberStore.empty.withTextures "/full") .empty "a"
  revert heq
  decide +kernel

end MemberStore
end ModAtlas.Workspace
