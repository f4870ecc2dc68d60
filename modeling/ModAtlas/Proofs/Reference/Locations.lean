import ModAtlas.Proofs.Files.Suffixes
import ModAtlas.Proofs.Workspace.Indexing
import ModAtlas.Proofs.Workspace.Population
import ModAtlas.Reference.Definition

/-!
# Where the files of a value are

A value is looked up in the index by its identifier, and only if no file is known by that is it
looked for among the files of its category. The file that makes it a member has the same
identifier as the value. So it is among the locations if it is indexed itself, and else only if no
indexed file shares its identifier: no two suffixes lead to the same URI.
-/

namespace ModAtlas.Reference
open ModAtlas.Files ModAtlas.Text ModAtlas.Workspace ModAtlas.Workspace.IdentifierIndex

/-! ## Suffixes -/

/-- A suffix that files are searched for: a dot and no other, in characters that stand in a URI
as they are. -/
structure IsExtension (suffix : String) : Prop where
  head : suffix.toList.head? = some '.'
  tail : '.' ∉ suffix.toList.tail
  slash : '/' ∉ suffix.toList
  long : 2 ≤ suffix.toList.length
  plain : Percent.encode suffix.toList = suffix.toList

instance (suffix : String) : Decidable (IsExtension suffix) :=
  decidable_of_iff (suffix.toList.head? = some '.' ∧ '.' ∉ suffix.toList.tail ∧
      '/' ∉ suffix.toList ∧ 2 ≤ suffix.toList.length ∧
      Percent.encode suffix.toList = suffix.toList)
    ⟨fun ⟨head, tail, slash, long, plain⟩ => ⟨head, tail, slash, long, plain⟩,
      fun ⟨head, tail, slash, long, plain⟩ => ⟨head, tail, slash, long, plain⟩⟩

theorem isExtension_of_mem_trackedSuffixes : ∀ suffix ∈ trackedSuffixes, IsExtension suffix := by
  decide +kernel

theorem Category.isExtension_of_source {c : Category} {suffix : String} {keepName : Bool}
    (source : c.source = .files suffix keepName) : IsExtension suffix := by
  cases c <;> cases source <;> decide +kernel

/-! ## Identifiers -/

theorem identifierOf_of_slash_notMem {text : String} (h : '/' ∉ text.toList) :
    identifierOf text = String.ofList (before '.' text.toList) := by
  rw [identifierOf, fileName_of_slash_notMem h]
  split
  · rename_i hnone
    rcases hnone with rfl | rfl <;> rfl
  · rfl

theorem identifierOf_fileName (path : String) : identifierOf (fileName path) = identifierOf path :=
  identifierOf_of_slash_notMem (slash_notMem_fileName path)

/-- What follows a dot does not matter to the identifier. -/
theorem before_append_of_head {sep : Char} {front back : List Char} (h : back.head? = some sep) :
    before sep (front ++ back) = before sep front := by
  obtain ⟨rest, rfl⟩ := List.head?_eq_some_iff.mp h
  induction front with
  | nil => simp [before]
  | cons c front ih =>
      simp only [before, List.cons_append, List.takeWhile_cons] at ih ⊢
      rw [ih]

/-- The members of a file are its name and its name without the suffix. -/
theorem eq_or_append_of_mem_memberNames {suffix m path : String} {keepName : Bool}
    (hm : m ∈ memberNames suffix keepName path) :
    m = fileName path ∨ m ++ suffix = fileName path := by
  have hcases : m = fileName path ∨ endsWith (fileName path).toList suffix.toList = true ∧
      m = String.ofList
        ((fileName path).toList.take ((fileName path).length - suffix.length)) := by
    unfold memberNames at hm
    dsimp only at hm
    split at hm <;> split at hm <;> simp_all [or_comm]
  rcases hcases with hname | ⟨hends, rfl⟩
  · exact .inl hname
  · right
    obtain ⟨front, hfront⟩ := endsWith_iff.mp hends
    simp [← String.toList_inj, ← hfront, ← String.length_toList]

/-- A file has the identifier of each of its members. -/
theorem identifierOf_of_mem_memberNames {suffix m path : String} {keepName : Bool}
    (hsuffix : suffix.toList.head? = some '.') (hm : m ∈ memberNames suffix keepName path) :
    identifierOf m = identifierOf path := by
  rcases eq_or_append_of_mem_memberNames hm with rfl | hstem
  · exact identifierOf_fileName path
  · have hname := congrArg String.toList hstem
    rw [String.toList_append] at hname
    have hslash : '/' ∉ m.toList := fun hin =>
      slash_notMem_fileName path (hname ▸ List.mem_append_left _ hin)
    rw [identifierOf_of_slash_notMem hslash, identifierOf, ← hname, before_append_of_head hsuffix]

/-! ## Files of members -/

theorem lookup_locateFirst_eq_some {member path m path' : String}
    {located : List (String × String)}
    (h : (locateFirst member path located).lookup m = some path') :
    (m = member ∧ path' = path) ∨ located.lookup m = some path' := by
  unfold locateFirst at h
  split at h
  · exact .inr h
  · rw [List.lookup_append, Option.or_eq_some_iff] at h
    rcases h with hbefore | ⟨-, hnew⟩
    · exact .inr hbefore
    · rw [List.lookup_cons] at hnew
      split at hnew
      · rename_i heq
        exact .inl ⟨beq_iff_eq.mp heq, (Option.some.inj hnew).symm⟩
      · cases hnew

/-- A member is located in a file that was named for it. -/
theorem mem_of_lookup_foldl_locateFirst {m path : String} {named located : List (String × String)}
    (h : (named.foldl (fun located p => locateFirst p.1 p.2 located) located).lookup m =
      some path) : (m, path) ∈ named ∨ located.lookup m = some path := by
  induction named generalizing located with
  | nil => exact .inr h
  | cons p named ih =>
      rcases ih h with hin | hfirst
      · exact .inl (List.mem_cons_of_mem p hin)
      · rcases lookup_locateFirst_eq_some hfirst with ⟨rfl, rfl⟩ | hbefore
        · exact .inl List.mem_cons_self
        · exact .inr hbefore

section Members
variable {t : Tree} {finder : Finder} {root language suffix m : String} {keepName : Bool}
  {c : Category}

/-- A member is located in a file that was found, and which has its identifier. -/
theorem exists_path_of_mem_loadedMembers (source : c.source = .files suffix keepName)
    (hm : m ∈ loadedMembers (load t finder root language c)) :
    ∃ found path, finder.find t root suffix = .ok found ∧ path ∈ found ∧
      identifierOf m = identifierOf path ∧
      (loadedFiles (load t finder root language c)).lookup m = some path := by
  obtain ⟨path, hlookup⟩ :=
    Option.isSome_iff_exists.mp ((isSome_lookup_loadedFiles source m).mpr hm)
  cases hfind : finder.find t root suffix with
  | error e =>
      simp [load, source, loadFiles, hfind, loadedMembers] at hm
  | ok found =>
      have hnamed := hlookup
      simp only [load, source, loadFiles, hfind, loadedFiles] at hnamed
      have hmem := (mem_of_lookup_foldl_locateFirst hnamed).resolve_right (by simp)
      obtain ⟨path', hpath, hin⟩ := List.mem_flatMap.mp hmem
      obtain ⟨m', hm', heq⟩ := List.mem_map.mp hin
      cases heq
      exact ⟨found, path, rfl, hpath, identifierOf_of_mem_memberNames
        (Category.isExtension_of_source source).head hm', hlookup⟩

end Members

/-! ## URIs -/

theorem suffix_encode {text tail : List Char} (h : tail <:+ text)
    (plain : Percent.encode tail = tail) : tail <:+ Percent.encode text := by
  obtain ⟨front, rfl⟩ := h
  rw [Percent.encode, Utf8.encode, List.flatMap_append, List.flatMap_append]
  exact ⟨_, congrArg _ plain.symm⟩

/-- The absolute path of a file leads to its name in a folder. -/
theorem exists_absolute_eq_child (t : Tree) {path : String} (h : fileName path ≠ "") :
    ∃ folder : Path, t.absolute (Path.ofString path) = folder.child (fileName path) := by
  have hsome : (Path.ofString path).segments ≠ [] := by
    intro hnone
    rw [fileName, Path.name, hnone] at h
    exact h rfl
  have hlast : (Path.ofString path).segments =
      (Path.ofString path).segments.dropLast ++ [fileName path] := by
    rw [fileName, Path.name, List.getLast?_eq_some_getLast hsome, Option.getD_some,
      List.dropLast_append_getLast]
  unfold Tree.absolute Path.join
  split
  · refine ⟨⟨(Path.ofString path).slashes, (Path.ofString path).segments.dropLast⟩, ?_⟩
    rw [Path.child, ← hlast]
  · refine ⟨⟨t.workingFolder.slashes,
      t.workingFolder.segments ++ (Path.ofString path).segments.dropLast⟩, ?_⟩
    rw [Path.child, List.append_assoc, ← hlast]

/-- The absolute path of a file ends as its name does. -/
theorem suffix_toString_absolute (t : Tree) {path : String} {tail : List Char}
    (h : tail <:+ path.toList) (slash : '/' ∉ tail) (long : 2 ≤ tail.length) :
    tail <:+ (t.absolute (Path.ofString path)).toString.toList := by
  have hname : tail <:+ (fileName path).toList := suffix_fileName h slash long
  have hne : fileName path ≠ "" := by
    intro hnone
    have hlength : tail.length ≤ 0 := by simpa [hnone] using hname.length_le
    omega
  obtain ⟨folder, hfolder⟩ := exists_absolute_eq_child t hne
  rw [hfolder]
  refine hname.trans ?_
  rcases folder.toList_toString_child (fileName path) with hchild | ⟨front, hchild⟩
  · exact hchild ▸ List.suffix_rfl
  · exact hchild ▸ (List.suffix_cons _ _).trans (List.suffix_append _ _)

theorem toList_uriOf (t : Tree) (path : String) : (uriOf t path).toList =
    "file://".toList ++ Percent.encode (t.absolute (Path.ofString path)).toString.toList := by
  simp [uriOf, Uri.ofPath]

/-- The URI of a file has its suffix. -/
theorem IsExtension.suffix_uriOf {suffix path : String} (h : IsExtension suffix) (t : Tree)
    (hpath : suffix.toList <:+ path.toList) : suffix.toList <:+ (uriOf t path).toList := by
  have hencode := suffix_encode (suffix_toString_absolute t hpath h.slash h.long) h.plain
  exact hencode.trans ⟨_, (toList_uriOf t path).symm⟩

/-- Files with different suffixes have different URIs. -/
theorem IsExtension.eq_of_uriOf_eq {suffix suffix' path path' : String} (h : IsExtension suffix)
    (h' : IsExtension suffix') {t : Tree} (hpath : suffix.toList <:+ path.toList)
    (hpath' : suffix'.toList <:+ path'.toList) (heq : uriOf t path = uriOf t path') :
    suffix = suffix' := by
  have huri := h.suffix_uriOf t hpath
  have huri' := h'.suffix_uriOf t hpath'
  rw [← heq] at huri'
  exact eq_of_suffixes huri huri' h.head h.tail h'.head h'.tail

/-! ## Locations -/

section Locations
variable {t : Tree} {members : MemberStore} {c : Category} {added : List String}
  {value path suffix : String}

theorem uris_fileLocations :
    (fileLocations t (.ofPaths added) members c value).map (·.uri) =
      (if pathsOf added (identifierOf value) = [] then
        (members.locate c value).toList.filter (· != "")
      else pathsOf added (identifierOf value)).map (uriOf t) := by
  have hlookup : ((ofPaths added).lookup (identifierOf value)).getD [] =
      pathsOf added (identifierOf value) := by
    rw [lookup_eq (entries_ofPaths added)]
    split
    · rename_i hnone
      rw [hnone]
      rfl
    · rfl
  unfold fileLocations
  rw [hlookup]
  split
  · rename_i hnone
    rw [if_pos hnone, List.map_map]
    rfl
  · rename_i hsome
    rw [if_neg hsome, List.map_map]
    rfl

/-- Of a member that is located in a file of its identifier, the locations contain the URI of this
file exactly if it has a tracked suffix, or no indexed file has the identifier. -/
theorem uriOf_mem_fileLocations_iff (hsuffix : IsExtension suffix)
    (hpath : suffix.toList <:+ path.toList) (hid : identifierOf value = identifierOf path)
    (hlocate : members.locate c value = some path)
    (sound : ∀ p ∈ added, ∃ tracked ∈ trackedSuffixes, tracked.toList <:+ p.toList)
    (complete : suffix ∈ trackedSuffixes → path ∈ added) :
    uriOf t path ∈ (fileLocations t (.ofPaths added) members c value).map (·.uri) ↔
      suffix ∈ trackedSuffixes ∨ ∀ p ∈ added, identifierOf p ≠ identifierOf value := by
  have hnone : pathsOf added (identifierOf value) = [] ↔
      ∀ p ∈ added, identifierOf p ≠ identifierOf value := by
    simp [pathsOf, List.filter_eq_nil_iff]
  rw [uris_fileLocations, ← hnone]
  by_cases hknown : pathsOf added (identifierOf value) = []
  · have hne : path ≠ "" := by
      rintro rfl
      have hlong := Nat.le_trans hsuffix.long hpath.length_le
      simp at hlong
    simp [hknown, hlocate, hne]
  · rw [if_neg hknown, or_iff_left hknown]
    constructor
    · -- a URI tells the suffix, so only a file with a tracked one can be meant
      intro huri
      obtain ⟨p, hp, heq⟩ := List.mem_map.mp huri
      obtain ⟨tracked, htracked, hends⟩ := sound p (List.mem_filter.mp hp).1
      have hext := isExtension_of_mem_trackedSuffixes tracked htracked
      exact hext.eq_of_uriOf_eq hsuffix hends hpath heq ▸ htracked
    · intro htracked
      refine List.mem_map_of_mem (List.mem_filter.mpr ⟨complete htracked, ?_⟩)
      rw [hid, beq_self_eq_true]

end Locations

/-! ## Indexed files -/

/-- The files that are collected are those found for each of the suffixes. -/
theorem mem_collect_iff {t : Tree} {finder : Finder} {root path : String}
    {suffixes added : List String} (h : collect t finder root suffixes = .ok added) :
    path ∈ added ↔ ∃ suffix ∈ suffixes, ∃ found,
      finder.find t root suffix = .ok found ∧ path ∈ found := by
  induction suffixes generalizing added with
  | nil =>
      cases h
      simp
  | cons suffix suffixes ih =>
      cases hfind : finder.find t root suffix with
      | error e =>
          simp [collect, List.mapM_cons, hfind, bind, Except.bind, Except.map] at h
      | ok found =>
          cases hrest : suffixes.mapM (finder.find t root) with
          | error e =>
              simp [collect, List.mapM_cons, hfind, hrest, bind, Except.bind, Except.map] at h
          | ok others =>
              have hadded : found ++ others.flatten = added := by
                simpa [collect, List.mapM_cons, hfind, hrest, bind, Except.bind, Except.map, pure,
                  Except.pure] using h
              have hcollect : collect t finder root suffixes = .ok others.flatten := by
                rw [collect, hrest]
                rfl
              rw [← hadded, List.mem_append, ih hcollect]
              simp [hfind]

end ModAtlas.Reference
