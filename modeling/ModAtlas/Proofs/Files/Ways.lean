import Mathlib.Data.List.Nodup
import ModAtlas.Proofs.Files.Suffixes

/-!
# Ways to files

A way leads down from a folder to a file, name by name. The finder follows exactly the ways that
are in sight: every folder on one can be listed, none that is entered has an ignored name, and the
file has the suffix and can be told from a folder. They come in the order of their names, each of
them once, and a folder that cannot be listed takes away those that pass through it and no other.

## Implementation notes

Two ways may lead to one file through links. They count as two, as the paths they make differ.
-/

namespace ModAtlas.Files
open ModAtlas.Text

/-! ## Ways -/

namespace Path

/-- The path at the end of a way down. -/
def descend (folder : Path) (way : List String) : Path := ⟨folder.slashes, folder.segments ++ way⟩

@[simp] theorem descend_child (folder : Path) (name : String) (way : List String) :
    (folder.child name).descend way = folder.descend (name :: way) := by
  simp [descend, child]

/-- The folders that a way down passes through, the first one included. -/
def foldersOn (folder : Path) : List String → List Path
  | [] => []
  | name :: way => folder :: (folder.child name).foldersOn way

end Path

theorem splitOn_intercalate {names : List String} (hne : names ≠ [])
    (hnames : ∀ name ∈ names, '/' ∉ name.toList) :
    splitOn '/' (String.intercalate "/" names).toList = names.map String.toList := by
  induction names with
  | nil => exact absurd rfl hne
  | cons name names ih =>
      obtain ⟨hname, hrest⟩ := List.forall_mem_cons.mp hnames
      by_cases hlast : names = []
      · subst hlast
        simp [splitOn_of_not_mem hname]
      · have happend : String.intercalate "/" (name :: names) =
            name ++ "/" ++ String.intercalate "/" names := by
          rw [← List.singleton_append, String.intercalate_append_of_ne_nil (by simp) hlast,
            String.intercalate_singleton]
        have hslash : (name ++ "/" ++ String.intercalate "/" names).toList =
            name.toList ++ '/' :: (String.intercalate "/" names).toList := by simp
        rw [happend, hslash, splitOn_append, splitOn_of_not_mem hname, ih hlast hrest]
        rfl

/-- Different ways down make different paths. -/
theorem Path.toString_descend_inj {folder : Path} {way way' : List String} (hne : way ≠ [])
    (hne' : way' ≠ []) (hnames : ∀ name ∈ way, IsName name) (hnames' : ∀ name ∈ way', IsName name)
    (h : (folder.descend way).toString = (folder.descend way').toString) : way = way' := by
  have hbody : String.intercalate "/" way = String.intercalate "/" way' := by
    rw [toString, toString, if_neg (by simp [descend, hne]), if_neg (by simp [descend, hne'])] at h
    have hjoined := String.append_right_inj _ |>.mp h
    simp only [descend] at hjoined
    by_cases hsegments : folder.segments = []
    · simpa [hsegments] using hjoined
    · rw [String.intercalate_append_of_ne_nil hsegments hne,
        String.intercalate_append_of_ne_nil hsegments hne'] at hjoined
      exact String.append_right_inj _ |>.mp hjoined
  have hpieces := congrArg (fun s : String => splitOn '/' s.toList) hbody
  simp only [splitOn_intercalate hne fun name hname => (hnames name hname).2.2,
    splitOn_intercalate hne' fun name hname => (hnames' name hname).2.2] at hpieces
  exact List.map_injective_iff.mpr (fun _ _ => String.toList_inj.mp) hpieces

/-! ## Folders without repetitions -/

/-- All names at and below an entry are names that files can have, and no folder has one twice. -/
inductive Entry.Tidy : Entry → Prop
  | file (octets : List UInt8) : Tidy (.file octets)
  | link (target : String) : Tidy (.link target)
  | folder (access : Access) {entries : List (String × Entry)}
      (names : ∀ e ∈ entries, IsName e.1) (once : (entries.map (·.1)).Nodup)
      (each : ∀ e ∈ entries, Tidy e.2) : Tidy (.folder access entries)

namespace Entry
variable {root e : Entry}

theorem Tidy.named (h : root.Tidy) : root.Named := by
  induction h with
  | file octets => exact .file octets
  | link target => exact .link target
  | folder access names _ _ ih => exact .folder access names ih

theorem Tidy.descend? (h : root.Tidy) {names : List String}
    (hdescend : root.descend? names = some e) : e.Tidy := by
  induction names generalizing root with
  | nil =>
      cases hdescend
      exact h
  | cons name names ih =>
      obtain ⟨child, hchild, hrest⟩ := Option.bind_eq_some_iff.mp hdescend
      cases h with
      | folder access names once each =>
          obtain ⟨before, after, rfl, -⟩ := List.lookup_eq_some_iff.mp hchild
          exact ih (each (name, child) (by simp)) hrest
      | _ => cases hchild

end Entry

namespace Tree
variable {t : Tree} {folder : Path} {names : List String}

/-- What is listed is sorted, each name once. -/
theorem pairwise_of_list (h : t.root.Tidy) (listed : t.list folder = .ok names) :
    names.Pairwise (· < ·) := by
  unfold list at listed
  split at listed
  · cases listed
  · rename_i access entries hget
    split at listed
    · cases listed
      obtain ⟨down, hdown⟩ := descend?_of_get hget
      cases h.descend? hdown with
      | folder access names once each => exact sorted_pairwise_lt once
    · cases listed
  · cases listed

/-- No name is looked up that is too long. -/
theorem stroll_of_tooLong {root : Entry} {way left : List String} {access : Access}
    {entries : List (String × Entry)} {name : String}
    (hfolder : root.descend? way.reverse = some (.folder access entries))
    (hlookup : access.lookup = true) (hup : name ≠ "..") (hlong : nameLimit < name.utf8ByteSize) :
    stroll root way (name :: left) = .failed .tooLong := by
  rw [stroll, hfolder]
  simp [hlookup, hup, hlong]

theorem isFolder_eq_false_of_error {p : Path} {e : FileError} (h : t.isFolder? p = .error e) :
    t.isFolder p = false := by
  unfold isFolder
  split
  · rename_i hget
    rw [isFolder?, hget] at h
    cases h
  · rfl

theorem isFolder?_of_list (listed : t.list folder = .ok names) :
    t.isFolder? folder = .ok true := by
  unfold list at listed
  unfold isFolder?
  split at listed
  · cases listed
  · rename_i access entries hget
    rw [hget]
  · cases listed

end Tree

/-! ## What is in sight -/

namespace Finder
variable (f : Finder) (t : Tree) (suffix : String)

/-- A way down to a file whose name ends with a suffix, and of which can be told that it is no
folder. Each folder on the way can be listed and has the next name, and none that is entered has an
ignored name. -/
inductive Sees : Path → List String → Prop
  | file {folder : Path} {names : List String} {name : String}
      (listed : t.list folder = .ok names) (here : name ∈ names)
      (noFolder : t.isFolder? (folder.child name) = .ok false)
      (ends : suffix.toList <:+ name.toList) : Sees folder [name]
  | inside {folder : Path} {names : List String} {name : String} {way : List String}
      (listed : t.list folder = .ok names) (here : name ∈ names) (entered : name ∉ f.ignored)
      (below : Sees (folder.child name) way) : Sees folder (name :: way)

/-- The ways through one of the names in a folder, the ways on from there being given. -/
def waysThrough (folder : Path) (name : String) (below : List (List String)) :
    List (List String) :=
  match t.isFolder? (folder.child name) with
  | .error _ => []
  | .ok true => if f.ignored.contains name then [] else below.map (name :: ·)
  | .ok false => if endsWith name.toList suffix.toList then [[name]] else []

/-- The ways that a walk follows for a number of levels. -/
def ways : Nat → Path → List (List String)
  | 0, _ => []
  | levels + 1, folder =>
    match t.list folder with
    | .error _ => []
    | .ok names =>
      names.flatMap fun name => f.waysThrough t suffix folder name (ways levels (folder.child name))

variable {f t suffix} {levels : Nat} {folder : Path} {way : List String}

theorem walk_eq_map_ways : f.walk t suffix levels folder =
    (f.ways t suffix levels folder).map fun way => (folder.descend way).toString := by
  induction levels generalizing folder with
  | zero => rfl
  | succ levels ih =>
      rw [walk, ways]
      cases t.list folder with
      | error e => rfl
      | ok names =>
          dsimp only
          rw [List.map_flatMap]
          refine List.flatMap_congr fun name _ => ?_
          rw [waysThrough]
          rcases t.isFolder? (folder.child name) with e | ⟨_ | _⟩
          · rfl
          · dsimp only
            split
            · rfl
            · rfl
          · dsimp only
            split
            · rfl
            · simp [ih]

theorem Sees.ne_nil (h : f.Sees t suffix folder way) : way ≠ [] := by
  cases h <;> simp

theorem Sees.isName (hnamed : t.root.Named) (h : f.Sees t suffix folder way) :
    ∀ name ∈ way, IsName name := by
  induction h with
  | file listed here => simpa using Tree.isName_of_list hnamed listed here
  | inside listed here _ _ ih =>
      exact List.forall_mem_cons.mpr ⟨Tree.isName_of_list hnamed listed here, ih⟩

/-- The file at the end of a way has the suffix. -/
theorem Sees.ends (h : f.Sees t suffix folder way) :
    suffix.toList <:+ (way.getLast h.ne_nil).toList := by
  induction h with
  | file _ _ _ ends => exact ends
  | inside _ _ _ below ih => rwa [List.getLast_cons below.ne_nil]

theorem Sees.isFolder? (h : f.Sees t suffix folder way) : t.isFolder? folder = .ok true := by
  cases h with
  | file listed => exact Tree.isFolder?_of_list listed
  | inside listed => exact Tree.isFolder?_of_list listed

/-- A way through a name is a way on from the folder of that name, or ends at it. -/
theorem mem_waysThrough {name : String} {below : List (List String)} :
    way ∈ f.waysThrough t suffix folder name below ↔
      (t.isFolder? (folder.child name) = .ok true ∧ name ∉ f.ignored ∧
        ∃ rest ∈ below, way = name :: rest) ∨
      t.isFolder? (folder.child name) = .ok false ∧ suffix.toList <:+ name.toList ∧
        way = [name] := by
  rw [waysThrough]
  rcases t.isFolder? (folder.child name) with e | ⟨_ | _⟩
  · simp
  · rw [← endsWith_iff]
    by_cases hends : endsWith name.toList suffix.toList = true
    · simp [hends]
    · simp [hends]
  · by_cases hignored : name ∈ f.ignored
    · simp [hignored]
    · simp [hignored, eq_comm]

/-- A walk follows the ways in sight that are no longer than it has levels. -/
theorem mem_ways_iff :
    way ∈ f.ways t suffix levels folder ↔ f.Sees t suffix folder way ∧ way.length ≤ levels := by
  induction levels generalizing folder way with
  | zero =>
      refine iff_of_false List.not_mem_nil fun ⟨hsees, hlength⟩ => hsees.ne_nil ?_
      exact List.length_eq_zero_iff.mp (Nat.le_zero.mp hlength)
  | succ levels ih =>
      rw [ways]
      constructor
      · intro h
        split at h
        · cases h
        · rename_i names listed
          obtain ⟨name, here, h⟩ := List.mem_flatMap.mp h
          rcases mem_waysThrough.mp h with ⟨-, hentered, rest, hrest, rfl⟩ | ⟨hfile, hends, rfl⟩
          · obtain ⟨hsees, hlength⟩ := ih.mp hrest
            exact ⟨.inside listed here hentered hsees, Nat.succ_le_succ hlength⟩
          · exact ⟨.file listed here hfile hends, by simp⟩
      · rintro ⟨hsees, hlength⟩
        cases hsees with
        | file listed here noFolder ends =>
            rw [listed]
            exact List.mem_flatMap.mpr ⟨_, here, mem_waysThrough.mpr (.inr ⟨noFolder, ends, rfl⟩)⟩
        | inside listed here entered below =>
            rw [listed]
            have hbelow := ih.mpr ⟨below, Nat.le_of_succ_le_succ hlength⟩
            exact List.mem_flatMap.mpr ⟨_, here,
              mem_waysThrough.mpr (.inl ⟨below.isFolder?, entered, _, hbelow, rfl⟩)⟩

theorem exists_eq_cons_of_mem_waysThrough {name : String} {below : List (List String)}
    (h : way ∈ f.waysThrough t suffix folder name below) : ∃ rest, way = name :: rest := by
  rcases mem_waysThrough.mp h with ⟨-, -, rest, -, rfl⟩ | ⟨-, -, rfl⟩
  · exact ⟨rest, rfl⟩
  · exact ⟨[], rfl⟩

theorem pairwise_waysThrough {name : String} {below : List (List String)}
    (h : below.Pairwise (· < ·)) :
    (f.waysThrough t suffix folder name below).Pairwise (· < ·) := by
  rw [waysThrough]
  split
  · exact .nil
  · split
    · exact .nil
    · rw [List.pairwise_map]
      exact h.imp fun hlt => List.cons_lt_cons_iff.mpr (.inr ⟨rfl, hlt⟩)
  · split
    · exact List.pairwise_singleton _ _
    · exact .nil

/-- A walk follows the ways in the order of their names. -/
theorem pairwise_ways (h : t.root.Tidy) : (f.ways t suffix levels folder).Pairwise (· < ·) := by
  induction levels generalizing folder with
  | zero => exact .nil
  | succ levels ih =>
      rw [ways]
      split
      · exact .nil
      · rename_i names listed
        rw [List.pairwise_flatMap]
        refine ⟨fun name _ => pairwise_waysThrough ih, ?_⟩
        refine (Tree.pairwise_of_list h listed).imp fun {a b} hab way hway way' hway' => ?_
        obtain ⟨rest, rfl⟩ := exists_eq_cons_of_mem_waysThrough hway
        obtain ⟨rest', rfl⟩ := exists_eq_cons_of_mem_waysThrough hway'
        exact List.cons_lt_cons_iff.mpr (.inl hab)

/-- No path is found twice. -/
theorem nodup_paths (h : t.root.Tidy) :
    ((f.ways t suffix levels folder).map fun way => (folder.descend way).toString).Nodup := by
  have hways : (f.ways t suffix levels folder).Nodup := by
    refine (pairwise_ways h).imp ?_
    rintro way _ hlt rfl
    exact List.lt_irrefl way hlt
  refine hways.map_on fun way hway way' hway' heq => ?_
  have hsees := (mem_ways_iff.mp hway).1
  have hsees' := (mem_ways_iff.mp hway').1
  exact Path.toString_descend_inj hsees.ne_nil hsees'.ne_nil (hsees.isName h.named)
    (hsees'.isName h.named) heq

/-! ## Folders that cannot be listed -/

/-- Can every folder on a way be listed? -/
def passable (t : Tree) (folder : Path) (way : List String) : Bool :=
  (folder.foldersOn way).all fun p => (t.list p).isOk

/-- Where some folders cannot be listed any more, the ways that pass through them are missing. -/
theorem ways_obstructed {t' : Tree} (hfolder : ∀ p, t'.isFolder? p = t.isFolder? p)
    (hlist : ∀ p, t'.list p = t.list p ∨ ∃ e, t'.list p = .error e) :
    f.ways t' suffix levels folder =
      (f.ways t suffix levels folder).filter (passable t' folder) := by
  induction levels generalizing folder with
  | zero => rfl
  | succ levels ih =>
      rcases hlist folder with hsame | ⟨e, herror⟩
      · rw [ways, ways, hsame]
        cases hnames : t.list folder with
        | error e => rfl
        | ok names =>
            have hpass (name : String) (way : List String) :
                passable t' folder (name :: way) = passable t' (folder.child name) way := by
              simp [passable, Path.foldersOn, hsame, hnames, Except.isOk, Except.toBool]
            have hlast (name : String) : passable t' folder [name] = true := by
              rw [hpass]
              rfl
            dsimp only
            rw [List.filter_flatMap]
            refine List.flatMap_congr fun name _ => ?_
            rw [waysThrough, waysThrough, hfolder]
            split
            · rfl
            · split
              · rfl
              · rw [ih, List.filter_map]
                congr 2
                funext way
                exact (hpass name way).symm
            · split
              · simp [hlast]
              · rfl
      · have hnone : ∀ way ∈ f.ways t suffix (levels + 1) folder,
            ¬ passable t' folder way = true := by
          intro way hway
          obtain ⟨name, rest, rfl⟩ := List.exists_cons_of_ne_nil (mem_ways_iff.mp hway).1.ne_nil
          simp [passable, Path.foldersOn, herror, Except.isOk, Except.toBool]
        rw [List.filter_eq_nil_iff.mpr hnone, ways, herror]

theorem find_eq_ways {root : String} (hroot : Char.ofNat 0 ∉ root.toList) :
    f.find t root suffix =
      .ok ((f.ways t suffix (f.maxDepth + 1).toNat (t.absolute (Path.ofString root))).map
        fun way => ((t.absolute (Path.ofString root)).descend way).toString) := by
  have hcontains : root.toList.contains (Char.ofNat 0) = false := by simpa using hroot
  rw [find, hcontains, walk_eq_map_ways]
  rfl

/-! ## What is found -/

/-- The files that are found below a root are exactly those that are in sight no deeper than the
greatest depth, in the order of the names on the ways to them, each way once. What the system
refuses to look up is not in sight. Where folders cannot be listed, exactly the ways that pass
through them are missing. -/
theorem find_inSight (f : Finder) {t : Tree} (htidy : t.root.Tidy) {root : String}
    (hroot : Char.ofNat 0 ∉ root.toList) (suffix : String) :
    let top := t.absolute (Path.ofString root)
    ∃ ways : List (List String),
      f.find t root suffix = .ok (ways.map fun way => (top.descend way).toString) ∧
      (∀ way, way ∈ ways ↔ f.Sees t suffix top way ∧ (way.length : Int) ≤ f.maxDepth + 1) ∧
      ways.Pairwise (· < ·) ∧
      (ways.map fun way => (top.descend way).toString).Nodup ∧
      ∀ t' : Tree, t'.workingFolder = t.workingFolder →
        (∀ p, t'.isFolder? p = t.isFolder? p) →
        (∀ p, t'.list p = t.list p ∨ ∃ e, t'.list p = .error e) →
        f.find t' root suffix = .ok ((ways.filter (passable t' top)).map
          fun way => (top.descend way).toString) := by
  intro top
  refine ⟨f.ways t suffix (f.maxDepth + 1).toNat top, find_eq_ways hroot, fun way => ?_,
    pairwise_ways htidy, nodup_paths htidy, fun t' hworking hfolder hlist => ?_⟩
  · rw [mem_ways_iff]
    refine and_congr_right fun hsees => ?_
    have := List.length_pos_of_ne_nil hsees.ne_nil
    omega
  · have htop : t'.absolute (Path.ofString root) = top := by
      simp only [top, Tree.absolute, hworking]
    rw [find_eq_ways hroot, htop, ways_obstructed hfolder hlist]

/-- A name that is longer than names can be. -/
@[irreducible] def endlessName : String := String.ofList (List.replicate 300 'a')

/-- A folder with a link back to it and one to an endless name, a folder of a tool, one that cannot
be listed and one in which nothing can be looked up. -/
def tangledTree : Tree where
  root := .folder .full [("mod", .folder .full [
    (".git", .folder .full [("old.unit", .file [])]), ("a.unit", .file []),
    ("again", .link "/mod"), ("locked", .folder .none [("b.unit", .file [])]),
    ("sealed", .folder ⟨true, false⟩ [("c.unit", .file [])]), ("x.unit", .link endlessName)])]
  workingFolder := .ofString "/"

/-- The names in it, in order. -/
def tangledNames : List String := [".git", "a.unit", "again", "locked", "sealed", "x.unit"]

theorem tidy_tangledTree : tangledTree.root.Tidy := by
  have hfolder (access : Access) {name : String} (h : IsName name) :
      (Entry.folder access [(name, .file [])]).Tidy :=
    .folder access (by simpa using h) (by simp) (by simpa using .file [])
  refine .folder .full (by decide) (by decide) (List.forall_mem_singleton.mpr ?_)
  refine .folder .full (by decide) (by decide) ?_
  simpa using ⟨hfolder .full (show IsName "old.unit" by decide), .file [], .link "/mod",
    hfolder .none (show IsName "b.unit" by decide),
    hfolder ⟨true, false⟩ (show IsName "c.unit" by decide), .link endlessName⟩

/-- A path that leads where the folder stands has the names in it. -/
theorem list_tangledTree {p : Path}
    (h : tangledTree.get p = tangledTree.get (Path.ofString "/mod")) :
    tangledTree.list p = .ok tangledNames := by
  rw [Tree.list, h]
  change Except.ok (sorted tangledNames) = _
  rw [sorted, List.mergeSort_of_pairwise (by decide)]

/-- The system refuses to look up what the link to the endless name leads to. -/
theorem isFolder?_tangledLink :
    tangledTree.isFolder? ((Path.ofString "/mod").child "x.unit") = .error .tooLong := by
  have hslash : '/' ∉ endlessName.toList := by
    unfold endlessName
    rw [String.toList_ofList]
    exact fun h => absurd (List.eq_of_mem_replicate h) (by decide)
  have hname : IsName endlessName := ⟨by decide +kernel, by decide +kernel, hslash⟩
  have hlink : Tree.stroll tangledTree.root [] ["mod", "x.unit"] =
      .linked ["mod"] endlessName [] := rfl
  have hend : Tree.stroll tangledTree.root ["mod"] [endlessName] = .failed .tooLong :=
    Tree.stroll_of_tooLong rfl rfl (by decide +kernel) (by decide +kernel)
  have hfrom : Tree.resolveFrom tangledTree.root (Tree.linkLimit + 1) [] ["mod", "x.unit"] =
      .error .tooLong := by
    rw [Tree.linkLimit, Tree.resolveFrom, hlink]
    dsimp only
    rw [Path.ofString_of_isName hname, Tree.resolveFrom]
    exact hend ▸ rfl
  have hresolve : tangledTree.resolve ((Path.ofString "/mod").child "x.unit") =
      .error .tooLong := by
    rw [Tree.resolve, if_neg (by decide +kernel), if_neg (by decide +kernel)]
    exact hfrom
  rw [Tree.isFolder?, Tree.get, hresolve]
  rfl

/-- What can only be told of with an error is not in sight. -/
theorem not_sees_tangled {folder : Path} {name : String} {e : FileError}
    (h : tangledTree.isFolder? (folder.child name) = .error e) {f : Finder} {suffix : String} :
    ¬ f.Sees tangledTree suffix folder [name] := by
  intro hsees
  cases hsees with
  | file _ _ noFolder => exact nomatch h.symm.trans noFolder
  | inside _ _ _ below => exact absurd rfl below.ne_nil

/-- The link back is followed as deep as the finder goes. Nothing is found in the folder of the
tool and in the two closed ones, and the link to the endless name is left out. -/
theorem find_inSight_tangled :
    tangledTree.root.Tidy ∧ Char.ofNat 0 ∉ "/mod".toList ∧
    ∃ ways : List (List String),
      (ofDepth 1).find tangledTree "/mod" ".unit" =
        .ok (ways.map fun way => ((Path.ofString "/mod").descend way).toString) ∧
      ["again", "a.unit"] ∈ ways ∧ ["again", "again", "a.unit"] ∉ ways ∧
      [".git", "old.unit"] ∉ ways ∧ ["locked", "b.unit"] ∉ ways ∧
      ["sealed", "c.unit"] ∉ ways ∧ ["x.unit"] ∉ ways := by
  have hroot : Char.ofNat 0 ∉ "/mod".toList := by decide
  obtain ⟨ways, hfind, hmem, -⟩ := find_inSight (ofDepth 1) tidy_tangledTree hroot ".unit"
  refine ⟨tidy_tangledTree, hroot, ways, hfind, (hmem _).mpr ⟨?_, by decide⟩, fun h => ?_,
    fun h => ?_, fun h => ?_, fun h => ?_, fun h => ?_⟩
  · exact .inside (list_tangledTree rfl) (by decide) (by decide)
      (.file (list_tangledTree rfl) (by decide) (by decide +kernel) (by decide))
  · exact absurd ((hmem _).mp h).2 (by decide)
  · cases ((hmem _).mp h).1 with
    | inside _ _ entered => exact entered (by decide)
  · cases ((hmem _).mp h).1 with
    | inside _ _ _ below =>
        cases below with
        | file listed => cases listed
        | inside listed => cases listed
  · cases ((hmem _).mp h).1 with
    | inside _ _ _ below => exact not_sees_tangled (e := .refused) rfl below
  · exact not_sees_tangled isFolder?_tangledLink ((hmem _).mp h).1

/-- It is not so that every entry of a folder that is no folder and has the suffix is found: the
link to the endless name is not. -/
theorem not_forall_mem_find :
    ¬ ∀ (f : Finder) (t : Tree) (root suffix : String), t.root.Tidy →
      Char.ofNat 0 ∉ root.toList → 0 ≤ f.maxDepth →
      let top := t.absolute (Path.ofString root)
      ∀ names, t.list top = .ok names → ∀ name ∈ names,
        t.isFolder (top.child name) = false → suffix.toList <:+ name.toList →
        ∃ paths, f.find t root suffix = .ok paths ∧ (top.child name).toString ∈ paths := by
  intro h
  have hroot : Char.ofNat 0 ∉ "/mod".toList := by decide
  obtain ⟨paths, hfind, hmem⟩ := h (ofDepth 1) tangledTree "/mod" ".unit" tidy_tangledTree hroot
    (by decide) tangledNames (list_tangledTree rfl) "x.unit" (by decide)
    (Tree.isFolder_eq_false_of_error isFolder?_tangledLink) (by decide)
  rw [find_eq_ways hroot, Except.ok.injEq] at hfind
  subst hfind
  obtain ⟨way, hway, heq⟩ := List.mem_map.mp hmem
  have hsees := (mem_ways_iff.mp hway).1
  have hlast : IsName "x.unit" := by decide
  obtain rfl : way = ["x.unit"] := by
    refine Path.toString_descend_inj hsees.ne_nil (by simp) (hsees.isName tidy_tangledTree.named)
      (List.forall_mem_singleton.mpr hlast) (heq.trans ?_)
    rfl
  exact not_sees_tangled isFolder?_tangledLink hsees

end Finder
end ModAtlas.Files
