import ModAtlas.Proofs.Reference.Labels
import ModAtlas.Proofs.Reference.Locations
import ModAtlas.Proofs.Service.Texts

/-!
# Definitions after a rebuild

A rebuild indexes the files with tracked suffixes and makes others members as well: images and
meshes. A reference to a member leads to the file that makes it one if this file is indexed, and
else only as long as no indexed file shares its identifier.
-/

namespace ModAtlas.Service
open ModAtlas.Files ModAtlas.Workspace ModAtlas.Reference ModAtlas.Text

section Surveyed
variable {t : Tree} {f : Finder} {root language suffix m : String} {keepName : Bool}
  {found added : List String} {c : Category}

theorem index_surveyed (h : collect t f root trackedSuffixes = .ok added) :
    (surveyed t f root language).index = .ofPaths added := by
  cases htexts : Rebuild.readTexts t f root with
  | error e =>
      rw [Rebuild.collect_of_unsearchable (unsearchable_of_readTexts htexts)] at h
      cases h
  | ok files => simp [surveyed, Rebuild.whole, Rebuild.deliver, h, htexts]

/-- A root that can be searched for one suffix can be searched for all tracked ones. -/
theorem exists_collect (h : f.find t root suffix = .ok found) :
    ∃ added, collect t f root trackedSuffixes = .ok added := by
  cases hcollect : collect t f root trackedSuffixes with
  | ok added => exact ⟨added, rfl⟩
  | error e =>
      rw [unsearchable_of_collect hcollect] at h
      cases h

/-- An identifier of an indexed file is that of the name of a tracked one. -/
theorem forall_mem_collect_iff (h : collect t f root trackedSuffixes = .ok added) {i : String} :
    (∀ p ∈ added, identifierOf p ≠ i) ↔
      ∀ tracked ∈ trackedSuffixes, ∀ name, f.FindsName t root tracked name →
        identifierOf name ≠ i := by
  constructor
  · rintro hnone tracked htracked name ⟨found, hfind, path, hpath, rfl⟩
    rw [identifierOf_fileName]
    exact hnone path ((mem_collect_iff h).mpr ⟨tracked, htracked, found, hfind, hpath⟩)
  · intro hnone p hp
    obtain ⟨tracked, htracked, found, hfind, hpath⟩ := (mem_collect_iff h).mp hp
    rw [← identifierOf_fileName]
    exact hnone tracked htracked _ ⟨found, hfind, p, hpath, rfl⟩

/-- Every member of files is located, and when its locations contain this file. -/
theorem locations_surveyed (source : c.source = .files suffix keepName)
    (hm : m ∈ (surveyed t f root language).members.members c) :
    ∃ path, (surveyed t f root language).members.locate c m = some path ∧ ∀ t' : Tree,
      (uriOf t' path ∈ (fileLocations t' (surveyed t f root language).index
          (surveyed t f root language).members c m).map (·.uri) ↔
        suffix ∈ trackedSuffixes ∨ ∀ tracked ∈ trackedSuffixes, ∀ name,
          f.FindsName t root tracked name → identifierOf name ≠ identifierOf m) := by
  rw [members_surveyed] at hm ⊢
  obtain ⟨found, path, hfind, hpath, hid, hlookup⟩ := exists_path_of_mem_loadedMembers source hm
  obtain ⟨added, hadded⟩ := exists_collect hfind
  refine ⟨path, hlookup, fun t' => ?_⟩
  rw [index_surveyed hadded, ← forall_mem_collect_iff hadded]
  refine uriOf_mem_fileLocations_iff (Category.isExtension_of_source source)
    (Finder.suffix_of_mem_find hfind hpath) hid hlookup ?_ ?_
  · intro p hp
    obtain ⟨tracked, htracked, found', hfind', hp'⟩ := (mem_collect_iff hadded).mp hp
    exact ⟨tracked, htracked, Finder.suffix_of_mem_find hfind' hp'⟩
  · exact fun htracked => (mem_collect_iff hadded).mpr ⟨suffix, htracked, found, hfind, hpath⟩

end Surveyed

namespace Workshop
variable {s s' : Workshop} {root : String} {language : Option String}

/-- After a rebuild every member that comes from a file is located there, and a reference to it
leads to this file exactly if files of its suffix are indexed or no indexed file is known by the
identifier of the member. -/
theorem locations_contain_iff (idle : s.IsIdle) (h : s.Rebuilds root language s') {c : Category}
    {suffix : String} {keepName : Bool} (source : c.source = .files suffix keepName) {m : String}
    (hm : m ∈ s'.service.atlas.members.members c) :
    let atlas := s'.service.atlas
    ∃ path, atlas.members.locate c m = some path ∧ ∀ t : Tree,
      (uriOf t path ∈ (fileLocations t atlas.index atlas.members c m).map (·.uri) ↔
        suffix ∈ trackedSuffixes ∨ ∀ tracked ∈ trackedSuffixes, ∀ name,
          s.service.finder.FindsName s.tree root tracked name →
            identifierOf name ≠ identifierOf m) := by
  rw [(h.leaves idle).1] at hm ⊢
  exact locations_surveyed source hm

/-! ## A texture and a unit of one name -/

/-- The files of a folder: a texture that is named like a unit, and one that is not. -/
def shipNames : List String := ["fighter.dds", "fighter.unit", "wing.dds"]

/-- A folder with these files. -/
def shipTree : Tree where
  root := .folder .full [("mod", .folder .full (shipNames.map fun name => (name, .file [])))]
  workingFolder := .ofString "/"

/-- The search of a service over the folder. -/
def shipFinder : Finder := (openedOver shipTree).service.finder

theorem find_shipTree (suffix : String) : shipFinder.find shipTree "/mod" suffix =
    .ok ((shipNames.filter fun name => endsWith name.toList suffix.toList).map
      fun name => ((Path.ofString "/mod").child name).toString) := by
  have hlist : shipTree.list (Path.ofString "/mod") = .ok shipNames := by
    change Except.ok (sorted shipNames) = _
    rw [sorted, List.mergeSort_of_pairwise (by decide)]
  exact congrArg Except.ok (shipFinder.walk_of_files hlist (by decide +kernel) 5)

theorem findsName_shipTree (suffix name : String) :
    shipFinder.FindsName shipTree "/mod" suffix name ↔
      name ∈ shipNames ∧ endsWith name.toList suffix.toList = true := by
  have hname : ∀ name ∈ shipNames,
      fileName ((Path.ofString "/mod").child name).toString = name := by decide +kernel
  simp only [Finder.FindsName, find_shipTree, Except.ok.injEq, exists_eq_left', List.mem_map,
    List.mem_filter, exists_exists_and_eq_and]
  constructor
  · rintro ⟨name, ⟨hmem, hends⟩, rfl⟩
    rw [hname name hmem]
    exact ⟨hmem, hends⟩
  · rintro ⟨hmem, hends⟩
    exact ⟨name, ⟨hmem, hends⟩, hname name hmem⟩

/-- A service over the folder after a rebuild. -/
def shipsRebuilt : Workshop :=
  (openedOver shipTree).run (.rebuild "/mod" (some "en") :: gatherAll 0)

theorem rebuilds_ships : (openedOver shipTree).Rebuilds "/mod" (some "en") shipsRebuilt :=
  rebuilds_gatherAll _ "/mod" (some "en")

theorem atlas_shipsRebuilt :
    shipsRebuilt.service.atlas = surveyed shipTree shipFinder "/mod" "en" :=
  (rebuilds_ships.leaves (idle_openedOver _)).1

theorem mem_textures_shipsRebuilt (stem : String) (h : stem ++ ".dds" ∈ shipNames) :
    stem ∈ shipsRebuilt.service.atlas.members.members .texture := by
  have source : Category.texture.source = .files ".dds" true := rfl
  have image : IsImageSuffix ".dds" := by decide
  rw [atlas_shipsRebuilt, members_surveyed]
  change stem ∈ loadedMembers (load shipTree shipFinder "/mod" "en" .texture)
  refine (mem_loadedMembers_iff source image).mpr (.inr ?_)
  exact (findsName_shipTree _ _).mpr ⟨h, endsWith_iff.mpr (by simp)⟩

theorem finds_fighter : shipFinder.FindsName shipTree "/mod" ".unit" "fighter.unit" :=
  (findsName_shipTree _ _).mpr (by decide)

/-- The texture that is named like a unit is out of reach, the other one is not. -/
theorem locations_contain_iff_ships :
    ((openedOver shipTree).IsIdle ∧
      (openedOver shipTree).Rebuilds "/mod" (some "en") shipsRebuilt ∧
      "fighter" ∈ shipsRebuilt.service.atlas.members.members .texture ∧
      "wing" ∈ shipsRebuilt.service.atlas.members.members .texture) ∧
    let atlas := shipsRebuilt.service.atlas
    (∃ path, atlas.members.locate .texture "fighter" = some path ∧ uriOf shipTree path ∉
      (fileLocations shipTree atlas.index atlas.members .texture "fighter").map (·.uri)) ∧
    ∃ path, atlas.members.locate .texture "wing" = some path ∧ uriOf shipTree path ∈
      (fileLocations shipTree atlas.index atlas.members .texture "wing").map (·.uri) := by
  have idle := idle_openedOver shipTree
  have source : Category.texture.source = .files ".dds" true := rfl
  have hfighter := mem_textures_shipsRebuilt "fighter" (by decide)
  have hwing := mem_textures_shipsRebuilt "wing" (by decide)
  obtain ⟨path, hpath, hiff⟩ := locations_contain_iff idle rebuilds_ships source hfighter
  obtain ⟨path', hpath', hiff'⟩ := locations_contain_iff idle rebuilds_ships source hwing
  refine ⟨⟨idle, rebuilds_ships, hfighter, hwing⟩, ⟨path, hpath, fun huri => ?_⟩, path', hpath',
    (hiff' shipTree).mpr (.inr fun tracked htracked name hname => ?_)⟩
  · rcases (hiff shipTree).mp huri with htracked | hnone
    · exact absurd htracked (by decide +kernel)
    · exact hnone ".unit" (by decide +kernel) _ finds_fighter (by decide +kernel)
  · have hother : ∀ tracked ∈ trackedSuffixes, ∀ name ∈ shipNames,
        endsWith name.toList tracked.toList = true → identifierOf name ≠ identifierOf "wing" := by
      decide +kernel
    obtain ⟨hmem, hends⟩ := (findsName_shipTree _ _).mp hname
    exact hother tracked htracked name hmem hends

/-- Not every reference to a member leads to the file that makes it one. -/
theorem not_forall_locations_contain :
    ¬ ∀ (s s' : Workshop) (root : String) (language : Option String), s.IsIdle →
      s.Rebuilds root language s' →
      ∀ (c : Category) (suffix : String) (keepName : Bool), c.source = .files suffix keepName →
      ∀ m ∈ s'.service.atlas.members.members c, ∃ path,
        s'.service.atlas.members.locate c m = some path ∧
        uriOf s'.tree path ∈ (fileLocations s'.tree s'.service.atlas.index
          s'.service.atlas.members c m).map (·.uri) := by
  intro h
  have hfighter := mem_textures_shipsRebuilt "fighter" (by decide)
  obtain ⟨path, hpath, huri⟩ := h _ _ _ _ (idle_openedOver shipTree) rebuilds_ships .texture
    ".dds" true rfl "fighter" hfighter
  rw [atlas_shipsRebuilt] at hfighter hpath huri
  obtain ⟨path', hpath', hiff⟩ := locations_surveyed rfl hfighter
  obtain rfl : path = path' := Option.some.inj (hpath.symm.trans hpath')
  rcases (hiff _).mp huri with htracked | hnone
  · exact absurd htracked (by decide +kernel)
  · exact hnone ".unit" (by decide +kernel) _ finds_fighter (by decide +kernel)

end Workshop
end ModAtlas.Service
