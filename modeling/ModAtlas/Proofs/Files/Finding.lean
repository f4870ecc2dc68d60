import Mathlib.Data.List.Basic
import ModAtlas.Files.Finder
import ModAtlas.Proofs.Text.Piece

/-!
# What is found

The path of a file that was found ends with the name of the file. So a longer suffix finds, in the
same order, those files that a shorter one finds whose names end with the longer one too.
-/

namespace ModAtlas.Files
open ModAtlas.Text

/-! ## Names -/

/-- Can a file have this name? -/
def IsName (name : String) : Prop := name ≠ "" ∧ name ≠ "." ∧ '/' ∉ name.toList

instance (name : String) : Decidable (IsName name) := inferInstanceAs (Decidable (_ ∧ _ ∧ _))

namespace Path

/-- The path of something in a folder is its name, after a slash if anything comes before. -/
theorem toList_toString_child (folder : Path) (name : String) :
    (folder.child name).toString.toList = name.toList ∨
      ∃ front, (folder.child name).toString.toList = front ++ '/' :: name.toList := by
  have hcons : (folder.child name).segments ≠ [] := by simp [child]
  rw [toString, if_neg (by simp [hcons]), String.toList_append, String.toList_ofList]
  by_cases hsegments : folder.segments = []
  · simp only [child, hsegments, List.nil_append, String.intercalate_singleton]
    cases folder.slashes with
    | zero => exact .inl rfl
    | succ n =>
        refine .inr ⟨List.replicate n '/', ?_⟩
        rw [List.replicate_succ', List.append_assoc, List.singleton_append]
  · refine .inr ⟨List.replicate folder.slashes '/' ++
      (String.intercalate "/" folder.segments).toList, ?_⟩
    simp only [child]
    rw [String.intercalate_append_of_ne_nil hsegments (by simp), String.intercalate_singleton]
    simp

/-- A name is a path of its own. -/
theorem ofString_of_isName {name : String} (h : IsName name) : ofString name = ⟨0, [name]⟩ := by
  obtain ⟨hne, hdot, hslash⟩ := h
  have hfirst : name.toList.takeWhile (· == '/') = [] := by
    cases hletters : name.toList with
    | nil => rfl
    | cons c rest =>
        have hc : c ≠ '/' := fun hc => hslash (by simp [hletters, hc])
        simp [hc]
  rw [ofString, leadingSlashes, hfirst, segmentsOf, splitOn_of_not_mem hslash]
  simp [hne, hdot]

end Path

theorem fileName_child {folder : Path} {name : String} (h : IsName name) :
    fileName (folder.child name).toString = name := by
  obtain ⟨hne, hdot, hslash⟩ := h
  have hkept : ((splitOn '/' name.toList).map String.ofList).filter
      (fun s => s != "" && s != ".") = [name] := by
    simp [splitOn_of_not_mem hslash, hne, hdot]
  have hlast : (Path.segmentsOf (folder.child name).toString.toList).getLast? = some name := by
    rcases folder.toList_toString_child name with h | ⟨front, h⟩
    · rw [Path.segmentsOf, h, hkept]
      rfl
    · rw [Path.segmentsOf, h, splitOn_append, List.map_append, List.filter_append, hkept]
      simp
  rw [fileName, Path.name, Path.ofString, hlast]
  rfl

/-! ## Folders -/

/-- All names at and below an entry are names that files can have. -/
inductive Entry.Named : Entry → Prop
  | file (octets : List UInt8) : Named (.file octets)
  | link (target : String) : Named (.link target)
  | folder (access : Access) {entries : List (String × Entry)}
      (names : ∀ e ∈ entries, IsName e.1) (each : ∀ e ∈ entries, Named e.2) :
      Named (.folder access entries)

namespace Entry
variable {root e : Entry}

theorem Named.descend? (h : root.Named) {names : List String}
    (hdescend : root.descend? names = some e) : e.Named := by
  induction names generalizing root with
  | nil =>
      cases hdescend
      exact h
  | cons name names ih =>
      obtain ⟨child, hchild, hrest⟩ := Option.bind_eq_some_iff.mp hdescend
      cases h with
      | folder access names each =>
          obtain ⟨before, after, rfl, -⟩ := List.lookup_eq_some_iff.mp hchild
          exact ih (each (name, child) (by simp)) hrest
      | _ => cases hchild

end Entry

namespace Tree

theorem descend?_of_stroll {root e : Entry} {way way' names : List String}
    (h : stroll root way names = .arrived way' e) : ∃ down, root.descend? down = some e := by
  induction names generalizing way with
  | nil =>
      rw [stroll] at h
      split at h
      · rename_i entry hentry
        cases h
        exact ⟨_, hentry⟩
      · cases h
  | cons name names ih =>
      rw [stroll] at h
      split at h
      · split at h
        · cases h
        · split at h
          · exact ih h
          · split at h
            · cases h
            · split at h
              · cases h
              · exact ih h
              · cases h
      · cases h
      · cases h

theorem descend?_of_resolveFrom {root : Entry} {links : Nat} {way names : List String}
    {found : List String × Entry} (h : resolveFrom root links way names = .ok found) :
    ∃ down, root.descend? down = some found.2 := by
  induction links generalizing way names with
  | zero => cases h
  | succ links ih =>
      rw [resolveFrom] at h
      split at h
      · rename_i way' entry hstroll
        cases h
        exact descend?_of_stroll hstroll
      · cases h
      · exact ih h

/-- What a path leads to stands at the end of a way down from the root. -/
theorem descend?_of_get {t : Tree} {p : Path} {e : Entry} (h : t.get p = .ok e) :
    ∃ down, t.root.descend? down = some e := by
  unfold get resolve at h
  split at h
  · cases h
  · split at h
    · cases h
    · cases hresolve : resolveFrom t.root (linkLimit + 1) [] (t.absolute p).segments with
      | error e =>
          rw [hresolve] at h
          cases h
      | ok found =>
          rw [hresolve] at h
          rw [← Except.ok.inj h]
          exact descend?_of_resolveFrom hresolve

section Named
variable {t : Tree} (h : t.root.Named)
include h

theorem named_of_get {p : Path} {e : Entry} (hget : t.get p = .ok e) : e.Named := by
  obtain ⟨down, hdown⟩ := descend?_of_get hget
  exact h.descend? hdown

/-- What is listed are names. -/
theorem isName_of_list {folder : Path} {names : List String}
    (listed : t.list folder = .ok names) {name : String} (hname : name ∈ names) : IsName name := by
  unfold list at listed
  split at listed
  · cases listed
  · rename_i access entries hget
    split at listed
    · cases listed
      obtain ⟨e, he, rfl⟩ : ∃ e ∈ entries, e.1 = name := by simpa [sorted] using hname
      cases named_of_get h hget with
      | folder access names each => exact names e he
    · cases listed
  · cases listed

end Named

end Tree

/-! ## Walks -/

namespace Finder
variable (f : Finder) {t : Tree} {suffix : String}

/-- In a folder without folders the files with the suffix are found. -/
theorem walk_of_files {folder : Path} {names : List String} (listed : t.list folder = .ok names)
    (files : ∀ name ∈ names, t.isFolder? (folder.child name) = .ok false) (levels : Nat) :
    f.walk t suffix (levels + 1) folder =
      (names.filter fun name => endsWith name.toList suffix.toList).map
        fun name => (folder.child name).toString := by
  rw [walk, listed]
  clear listed
  induction names with
  | nil => rfl
  | cons name names ih =>
      have hfile := files name List.mem_cons_self
      have hrest := ih fun name hname => files name (List.mem_cons_of_mem _ hname)
      dsimp only at hrest ⊢
      rw [List.flatMap_cons, hrest, hfile, List.filter_cons]
      by_cases hends : endsWith name.toList suffix.toList = true
      · simp [hends]
      · simp [hends]

/-- A longer suffix finds those files whose names end with it, in the same order. -/
theorem walk_longer (hnamed : t.root.Named) {longer : String} (h : suffix.toList <:+ longer.toList)
    (levels : Nat) (folder : Path) :
    f.walk t longer levels folder = (f.walk t suffix levels folder).filter
      fun path => endsWith (fileName path).toList longer.toList := by
  induction levels generalizing folder with
  | zero => rfl
  | succ levels ih =>
      rw [walk, walk]
      cases hlist : t.list folder with
      | error e => rfl
      | ok names =>
          have hname (name : String) (hmem : name ∈ names) : IsName name :=
            Tree.isName_of_list hnamed hlist hmem
          dsimp only
          rw [List.filter_flatMap]
          refine List.flatMap_congr fun name hmem => ?_
          split
          · rfl
          · split
            · rfl
            · exact ih _
          · by_cases hlonger : endsWith name.toList longer.toList = true
            · have hends : endsWith name.toList suffix.toList = true :=
                endsWith_iff.mpr (h.trans (endsWith_iff.mp hlonger))
              simp [hlonger, hends, fileName_child (hname name hmem)]
            · by_cases hends : endsWith name.toList suffix.toList = true
              · simp [hlonger, hends, fileName_child (hname name hmem)]
              · simp [hlonger, hends]

end Finder
end ModAtlas.Files
