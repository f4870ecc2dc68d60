import ModAtlas.Proofs.Files.Ways
import ModAtlas.Proofs.Json.Merging
import ModAtlas.Workspace.IdentifierIndex

/-!
# What an index holds

An index groups the paths that were added to it by their identifiers: the identifiers in the order
in which they appeared, and under each of them its paths in the order in which they were added.
This holds after every run of changes, so that lookups in both directions can be read off the
paths that were added since everything was last dropped.

No name ends with two of the tracked suffixes, since each has its only dot at its start. Hence a
rebuild adds every tracked file in sight once.
-/

namespace ModAtlas.Workspace
open ModAtlas.Files ModAtlas.Json ModAtlas.Text

/-! ## Changes -/

/-- A change of an index. A rebuild looks for files in the tree of its time. -/
inductive IndexChange where
  | add (path : String)
  | replace (paths : List String)
  | clear
  | rebuild (t : Tree) (root : String)

namespace IdentifierIndex
variable (finder : Finder) (suffixes : List String)

/-- The index after a change. A rebuild that cannot look for files leaves it as it is. -/
def change (index : IdentifierIndex) : IndexChange → IdentifierIndex
  | .add path => index.add path
  | .replace paths => .ofPaths paths
  | .clear => .empty
  | .rebuild t root => ((collect t finder root suffixes).toOption.map .ofPaths).getD index

/-- The index after changes, from an empty one on. -/
def run (changes : List IndexChange) : IdentifierIndex :=
  changes.foldl (change finder suffixes) .empty

/-- The paths that have been added since everything was last dropped, after one change more. -/
def addedAfter (added : List String) : IndexChange → List String
  | .add path => added ++ [path]
  | .replace paths => paths
  | .clear => []
  | .rebuild t root => (collect t finder root suffixes).toOption.getD added

/-- The paths that have been added since everything was last dropped. -/
def addedBy (changes : List IndexChange) : List String :=
  changes.foldl (addedAfter finder suffixes) []

/-! ## Grouped paths -/

/-- The paths of an identifier among those that were added. -/
def pathsOf (added : List String) (identifier : String) : List String :=
  added.filter fun path => identifierOf path == identifier

/-- Paths grouped by their identifiers, the identifiers in the order of their first paths. -/
def grouped (added : List String) : List (String × List String) :=
  (added.map identifierOf).eraseDups.map fun i => (i, pathsOf added i)

variable {finder suffixes} {added : List String} {path identifier : String}

theorem pathsOf_concat : pathsOf (added ++ [path]) identifier =
    pathsOf added identifier ++ if identifierOf path = identifier then [path] else [] := by
  by_cases h : identifierOf path = identifier
  · simp [pathsOf, h]
  · simp [pathsOf, h]

theorem pathsOf_eq_nil_iff :
    pathsOf added identifier = [] ↔ identifier ∉ added.map identifierOf := by
  simp [pathsOf, List.filter_eq_nil_iff]

/-- What adding a path does to entries that are given by their identifiers. -/
theorem addUnder_map {keys : List String} (hnodup : keys.Nodup) (g : String → List String) :
    addUnder identifier path (keys.map fun k => (k, g k)) =
      if identifier ∈ keys then
        keys.map fun k => (k, g k ++ if identifier = k then [path] else [])
      else (keys.map fun k => (k, g k)) ++ [(identifier, [path])] := by
  induction keys with
  | nil => rfl
  | cons key keys ih =>
      obtain ⟨hkey, hrest⟩ := List.nodup_cons.mp hnodup
      rw [List.map_cons, addUnder]
      by_cases heq : key = identifier
      · subst heq
        have hother : ∀ k ∈ keys, key ≠ k := fun k hk hsame => hkey (hsame ▸ hk)
        have htail : (keys.map fun k => (k, g k ++ if key = k then [path] else [])) =
            keys.map fun k => (k, g k) := by
          refine List.map_congr_left fun k hk => ?_
          rw [if_neg (hother k hk), List.append_nil]
        rw [if_pos rfl, if_pos List.mem_cons_self, List.map_cons, htail, if_pos rfl]
      · rw [if_neg heq, ih hrest]
        by_cases hmem : identifier ∈ keys
        · simp [hmem, Ne.symm heq]
        · simp [hmem, Ne.symm heq]

theorem addUnder_grouped :
    addUnder (identifierOf path) path (grouped added) = grouped (added ++ [path]) := by
  rw [grouped, addUnder_map (nodup_eraseDups _), grouped, List.map_append, List.map_singleton,
    eraseDups_concat]
  simp only [List.mem_eraseDups]
  by_cases hknown : identifierOf path ∈ added.map identifierOf
  · rw [if_pos hknown, if_pos hknown]
    exact List.map_congr_left fun i _ => by rw [pathsOf_concat]
  · rw [if_neg hknown, if_neg hknown, List.map_append, List.map_singleton]
    have hold : ∀ i ∈ (added.map identifierOf).eraseDups,
        pathsOf (added ++ [path]) i = pathsOf added i := by
      intro i hi
      have hne : identifierOf path ≠ i := fun heq => hknown (heq ▸ List.mem_eraseDups.mp hi)
      rw [pathsOf_concat, if_neg hne, List.append_nil]
    have hnew : pathsOf (added ++ [path]) (identifierOf path) = [path] := by
      rw [pathsOf_concat, if_pos rfl, pathsOf_eq_nil_iff.mpr hknown]
      rfl
    rw [hnew]
    exact congrArg (· ++ _) (List.map_congr_left fun i hi => by rw [hold i hi])

/-! ## Runs -/

theorem entries_foldl_add {index : IdentifierIndex} (h : index.entries = grouped added)
    (paths : List String) : (paths.foldl add index).entries = grouped (added ++ paths) := by
  induction paths generalizing index added with
  | nil => rwa [List.append_nil]
  | cons path paths ih =>
      have hadd : (index.add path).entries = grouped (added ++ [path]) := by
        rw [add, h, addUnder_grouped]
      rw [List.foldl_cons, ih hadd, List.append_assoc, List.singleton_append]

theorem entries_ofPaths (paths : List String) : (ofPaths paths).entries = grouped paths := by
  have hempty : empty.entries = grouped [] := rfl
  exact entries_foldl_add hempty paths

/-- A change keeps the paths grouped. -/
theorem entries_change {index : IdentifierIndex} (h : index.entries = grouped added)
    (c : IndexChange) : (index.change finder suffixes c).entries =
      grouped (addedAfter finder suffixes added c) := by
  cases c with
  | add path => rw [change, add, h, addUnder_grouped, addedAfter]
  | replace paths => exact entries_ofPaths paths
  | clear => rfl
  | rebuild t root =>
      rw [change, addedAfter]
      cases collect t finder root suffixes with
      | error e => exact h
      | ok paths => exact entries_ofPaths paths

/-- After every run of changes the paths are grouped. -/
theorem entries_run (changes : List IndexChange) :
    (run finder suffixes changes).entries = grouped (addedBy finder suffixes changes) := by
  induction changes using List.reverseRecOn with
  | nil => rfl
  | append_singleton changes c ih =>
      rw [run, addedBy, List.foldl_concat, List.foldl_concat]
      exact entries_change ih c

/-! ## Lookups -/

section Lookups
variable {index : IdentifierIndex} (h : index.entries = grouped added)
include h

theorem lookup_eq : index.lookup identifier =
    if pathsOf added identifier = [] then none else some (pathsOf added identifier) := by
  have hmap (keys : List String) (g : String → List String) :
      (keys.map fun k => (k, g k)).lookup identifier =
        if identifier ∈ keys then some (g identifier) else none := by
    induction keys with
    | nil => rfl
    | cons key keys ih =>
        by_cases heq : identifier = key
        · simp [heq]
        · have hkey : (identifier == key) = false := by simpa using heq
          simp [List.lookup_cons, heq, hkey, ih]
  rw [lookup, h, grouped, hmap]
  simp only [List.mem_eraseDups, pathsOf_eq_nil_iff, ite_not]

theorem reverseLookup_eq :
    index.reverseLookup path = if path ∈ added then some (identifierOf path) else none := by
  have hholds (i : String) :
      (pathsOf added i).contains path = true ↔ path ∈ added ∧ identifierOf path = i := by
    simp [pathsOf]
  rw [reverseLookup, h, grouped, List.find?_map, Option.map_map]
  change ((added.map identifierOf).eraseDups.find? fun i =>
    (pathsOf added i).contains path).map id = _
  rw [Option.map_id]
  cases hresult : (added.map identifierOf).eraseDups.find? fun i =>
      (pathsOf added i).contains path with
  | none =>
      have hmissing : path ∉ added := fun hadded =>
        List.find?_eq_none.mp hresult (identifierOf path)
          (List.mem_eraseDups.mpr (List.mem_map_of_mem hadded)) ((hholds _).mpr ⟨hadded, rfl⟩)
      rw [if_neg hmissing]
      rfl
  | some i =>
      have hsome := List.find?_some hresult
      obtain ⟨hadded, rfl⟩ := (hholds i).mp hsome
      rw [if_pos hadded]
      rfl

end Lookups

/-! ## All paths -/

/-- The paths of all identifiers. -/
def allPaths (index : IdentifierIndex) : List String := index.entries.flatMap (·.2)

theorem perm_addUnder (entries : List (String × List String)) :
    ((addUnder identifier path entries).flatMap (·.2)).Perm
      (entries.flatMap (·.2) ++ [path]) := by
  induction entries with
  | nil => exact .refl _
  | cons e entries ih =>
      obtain ⟨i, paths⟩ := e
      rw [addUnder]
      split
      · simp only [List.flatMap_cons, List.append_assoc]
        exact List.perm_append_comm.append_left paths
      · simp only [List.flatMap_cons, List.append_assoc]
        exact ih.append_left paths

/-- Grouping neither loses nor repeats a path. -/
theorem perm_grouped (added : List String) : ((grouped added).flatMap (·.2)).Perm added := by
  induction added using List.reverseRecOn with
  | nil => exact .refl _
  | append_singleton added path ih =>
      rw [← addUnder_grouped]
      exact (perm_addUnder _).trans (ih.append_right [path])

/-! ## Tracked files -/

section Tracked
variable {t : Tree} {root : String}

/-- The paths of the tracked files that are in sight below a root. -/
def trackedPaths (finder : Finder) (t : Tree) (root : String) : List String :=
  trackedSuffixes.flatMap fun suffix =>
    (finder.ways t suffix (finder.maxDepth + 1).toNat (t.absolute (Path.ofString root))).map
      fun way => ((t.absolute (Path.ofString root)).descend way).toString

theorem collect_eq (hroot : Char.ofNat 0 ∉ root.toList) :
    collect t finder root trackedSuffixes = .ok (trackedPaths finder t root) := by
  have hfind : finder.find t root = fun suffix => pure
      ((finder.ways t suffix (finder.maxDepth + 1).toNat
        (t.absolute (Path.ofString root))).map
          fun way => ((t.absolute (Path.ofString root)).descend way).toString) := by
    funext suffix
    exact Finder.find_eq_ways hroot
  rw [collect, hfind, List.mapM_pure, trackedPaths, List.flatMap_def]
  rfl

/-- A tracked suffix has its only dot at its start. -/
theorem dots_of_mem_trackedSuffixes :
    ∀ suffix ∈ trackedSuffixes, suffix.toList.head? = some '.' ∧ '.' ∉ suffix.toList.tail := by
  decide +kernel

/-- Of two suffixes that have their only dot at their start, none ends with the other. -/
theorem eq_of_suffix {s s' : List Char} (h : s <:+ s') (hhead : s.head? = some '.')
    (htail : '.' ∉ s'.tail) : s = s' := by
  obtain ⟨rest, rfl⟩ := List.head?_eq_some_iff.mp hhead
  obtain ⟨front, rfl⟩ := h
  cases front with
  | nil => rfl
  | cons c front => exact absurd (by simp) htail

/-- No name ends with two suffixes that have their only dot at their start. -/
theorem eq_of_suffixes {s s' : String} {name : List Char} (h : s.toList <:+ name)
    (h' : s'.toList <:+ name) (hhead : s.toList.head? = some '.') (htail : '.' ∉ s.toList.tail)
    (hhead' : s'.toList.head? = some '.') (htail' : '.' ∉ s'.toList.tail) : s = s' := by
  rw [← String.toList_inj]
  rcases List.suffix_or_suffix_of_suffix h h' with hle | hle
  · exact eq_of_suffix hle hhead htail'
  · exact (eq_of_suffix hle hhead' htail).symm

/-- No name ends with two tracked suffixes. -/
theorem trackedSuffix_unique {s s' : String} (hs : s ∈ trackedSuffixes)
    (hs' : s' ∈ trackedSuffixes) {name : List Char} (h : s.toList <:+ name)
    (h' : s'.toList <:+ name) : s = s' := by
  obtain ⟨hhead, htail⟩ := dots_of_mem_trackedSuffixes s hs
  obtain ⟨hhead', htail'⟩ := dots_of_mem_trackedSuffixes s' hs'
  exact eq_of_suffixes h h' hhead htail hhead' htail'

theorem mem_trackedPaths_iff {path : String} : path ∈ trackedPaths finder t root ↔
    ∃ suffix ∈ trackedSuffixes, ∃ way,
      (finder.Sees t suffix (t.absolute (Path.ofString root)) way ∧
        way.length ≤ (finder.maxDepth + 1).toNat) ∧
      ((t.absolute (Path.ofString root)).descend way).toString = path := by
  simp only [trackedPaths, List.mem_flatMap, List.mem_map, Finder.mem_ways_iff]

theorem nodup_trackedPaths (htidy : t.root.Tidy) : (trackedPaths finder t root).Nodup := by
  refine List.nodup_flatMap.mpr ⟨fun suffix _ => Finder.nodup_paths htidy, ?_⟩
  have hnodup : trackedSuffixes.Nodup := by decide +kernel
  refine hnodup.pairwise_of_forall_ne fun s hs s' hs' hne => ?_
  apply List.disjoint_left.mpr
  intro path hpath hpath'
  obtain ⟨way, hway, rfl⟩ := List.mem_map.mp hpath
  obtain ⟨way', hway', heq⟩ := List.mem_map.mp hpath'
  have hsees := (Finder.mem_ways_iff.mp hway).1
  have hsees' := (Finder.mem_ways_iff.mp hway').1
  obtain rfl := Path.toString_descend_inj hsees'.ne_nil hsees.ne_nil
    (hsees'.isName htidy.named) (hsees.isName htidy.named) heq
  exact hne (trackedSuffix_unique hs hs' hsees.ends hsees'.ends)

end Tracked

/-! ## What an index says -/

/-- After every run of changes an index gives for an identifier exactly the paths that were added
for it since everything was last dropped, in order; it lists the identifiers by their first paths,
and gives the identifier of a path exactly when the path was added. A rebuild adds every tracked
file in sight once and nothing else. -/
theorem indexed_exact (finder : Finder) (suffixes : List String) (changes : List IndexChange) :
    let index := run finder suffixes changes
    let added := addedBy finder suffixes changes
    (∀ identifier, index.lookup identifier =
      if pathsOf added identifier = [] then none else some (pathsOf added identifier)) ∧
    index.entries = (added.map identifierOf).eraseDups.map (fun i => (i, pathsOf added i)) ∧
    (∀ path, index.reverseLookup path =
      if path ∈ added then some (identifierOf path) else none) ∧
    ∀ t root, t.root.Tidy → Char.ofNat 0 ∉ root.toList →
      let rebuilt := index.change finder trackedSuffixes (.rebuild t root)
      let top := t.absolute (Path.ofString root)
      (∀ suffix ∈ trackedSuffixes, ∀ way, finder.Sees t suffix top way →
        (way.length : Int) ≤ finder.maxDepth + 1 →
          rebuilt.allPaths.count (top.descend way).toString = 1) ∧
      ∀ path ∈ rebuilt.allPaths, ∃ suffix ∈ trackedSuffixes, ∃ way,
        finder.Sees t suffix top way ∧ (way.length : Int) ≤ finder.maxDepth + 1 ∧
          path = (top.descend way).toString := by
  intro index added
  have hentries : index.entries = grouped added := entries_run changes
  refine ⟨fun identifier => lookup_eq hentries, hentries, fun path => reverseLookup_eq hentries,
    fun t root htidy hroot => ?_⟩
  intro rebuilt top
  have hperm : rebuilt.allPaths.Perm (trackedPaths finder t root) := by
    have hrebuilt : rebuilt.entries = grouped (trackedPaths finder t root) := by
      simp only [rebuilt, entries_change hentries, addedAfter, collect_eq hroot]
      rfl
    rw [allPaths, hrebuilt]
    exact perm_grouped _
  refine ⟨fun suffix hsuffix way hsees hlength => ?_, fun path hpath => ?_⟩
  · rw [hperm.count_eq]
    refine List.count_eq_one_of_mem (nodup_trackedPaths htidy) ?_
    exact mem_trackedPaths_iff.mpr ⟨suffix, hsuffix, way, ⟨hsees, by omega⟩, rfl⟩
  · obtain ⟨suffix, hsuffix, way, ⟨hsees, hlength⟩, rfl⟩ :=
      mem_trackedPaths_iff.mp (hperm.mem_iff.mp hpath)
    have := List.length_pos_of_ne_nil hsees.ne_nil
    exact ⟨suffix, hsuffix, way, hsees, by omega, rfl⟩

/-- Files whose names end like a tracked suffix, with another one before it, or are one. -/
def hangarTree : Tree where
  root := .folder .full [("mod", .folder .full [
    (".unit", .file []), ("fighter.unit", .file []), ("fighter.unit.weapon", .file [])])]
  workingFolder := .ofString "/"

theorem tidy_hangarTree : hangarTree.root.Tidy := by
  refine .folder .full (by decide) (by decide) (List.forall_mem_singleton.mpr ?_)
  refine .folder .full (by decide) (by decide) ?_
  simpa using .file []

/-- Only what was added after the paths were replaced is found, and a rebuild adds the file with
two suffixes once. -/
theorem indexed_exact_hangar :
    let index := run (.ofDepth 5) trackedSuffixes
      [.add "/old/ghost.unit", .replace ["/mod/fighter.unit", "/mod/wing.unit"],
        .add "/mod/fighter.buff"]
    hangarTree.root.Tidy ∧ Char.ofNat 0 ∉ "/mod".toList ∧
      index.lookup "fighter" = some ["/mod/fighter.unit", "/mod/fighter.buff"] ∧
      index.lookup "ghost" = none ∧ index.reverseLookup "/mod/wing.unit" = some "wing" ∧
      (index.change (.ofDepth 5) trackedSuffixes (.rebuild hangarTree "/mod")).allPaths.count
        "/mod/fighter.unit.weapon" = 1 := by
  intro index
  have hroot : Char.ofNat 0 ∉ "/mod".toList := by decide
  obtain ⟨hlookup, -, hreverse, hrebuild⟩ := indexed_exact (.ofDepth 5) trackedSuffixes
    [.add "/old/ghost.unit", .replace ["/mod/fighter.unit", "/mod/wing.unit"],
      .add "/mod/fighter.buff"]
  have hlist : hangarTree.list (Path.ofString "/mod") =
      .ok [".unit", "fighter.unit", "fighter.unit.weapon"] := by
    change Except.ok (sorted [".unit", "fighter.unit", "fighter.unit.weapon"]) = _
    rw [sorted, List.mergeSort_of_pairwise (by decide)]
  have hsees : (Finder.ofDepth 5).Sees hangarTree ".weapon" (Path.ofString "/mod")
      ["fighter.unit.weapon"] :=
    .file hlist (by decide) (by decide +kernel) (by decide +kernel)
  refine ⟨tidy_hangarTree, hroot, (hlookup "fighter").trans (by decide +kernel),
    (hlookup "ghost").trans (by decide +kernel),
    (hreverse "/mod/wing.unit").trans (by decide +kernel), ?_⟩
  exact (hrebuild hangarTree "/mod" tidy_hangarTree hroot).1 ".weapon" (by decide +kernel) _ hsees
    (by decide)

end IdentifierIndex
end ModAtlas.Workspace
