import ModAtlas.Proofs.Files.Finding

/-!
# Names and their suffixes

A file name holds no slash, and is its own file name. It splits at its last dot when something
stands before that dot and after it. The name of a file that was found ends with the suffix that
was searched for.
-/

namespace ModAtlas.Files
open ModAtlas.Text

/-! ## File names -/

theorem slash_notMem_fileName (text : String) : '/' ∉ (fileName text).toList := by
  rw [fileName, Path.name]
  cases hlast : (Path.ofString text).segments.getLast? with
  | none => simp
  | some segment =>
      obtain ⟨piece, hpiece, rfl⟩ :=
        List.mem_map.mp (List.mem_filter.mp (List.mem_of_getLast? hlast)).1
      simpa using notMem_of_mem_splitOn hpiece

/-- A text without slashes is its own file name, unless it stands for no file. -/
theorem fileName_of_slash_notMem {text : String} (h : '/' ∉ text.toList) :
    fileName text = if text = "" ∨ text = "." then "" else text := by
  rw [fileName, Path.name, Path.ofString, Path.segmentsOf, splitOn_of_not_mem h]
  by_cases hnone : text = "" ∨ text = "."
  · rcases hnone with rfl | rfl <;> rfl
  · rw [not_or] at hnone
    simp [hnone]

/-- The file name of a text ends as the text does. -/
theorem suffix_fileName {text : String} {tail : List Char} (h : tail <:+ text.toList)
    (hslash : '/' ∉ tail) (hlength : 2 ≤ tail.length) : tail <:+ (fileName text).toList := by
  obtain ⟨front, hfront⟩ := h
  obtain ⟨pieces, piece, hpieces⟩ := splitOn_append_of_not_mem (s := front) hslash
  have hkept : (String.ofList (piece ++ tail) != "" && String.ofList (piece ++ tail) != ".") =
      true := by
    have hlong (short : String) (hshort : short.toList.length ≤ 1) :
        String.ofList (piece ++ tail) ≠ short := by
      rintro rfl
      rw [String.toList_ofList, List.length_append] at hshort
      omega
    rw [Bool.and_eq_true, bne_iff_ne, bne_iff_ne]
    exact ⟨hlong "" (by decide), hlong "." (by decide)⟩
  rw [fileName, Path.name, Path.ofString, Path.segmentsOf, ← hfront, hpieces, List.map_append,
    List.filter_append, List.map_singleton, List.filter_singleton, hkept]
  simp

/-! ## Stems -/

namespace Path
variable {front back : List Char}

/-- A name splits at its last dot, if something stands on both sides of it. -/
theorem dot?_append (h : '.' ∉ back) :
    dot? (front ++ '.' :: back) = if front = [] ∨ back = [] then none else some front.length := by
  have hkeep : ∀ c ∈ back.reverse, (c != '.') = true := fun c hc =>
    bne_iff_ne.mpr fun hdot => h (hdot ▸ List.mem_reverse.mp hc)
  have hback : ((front ++ '.' :: back).reverse.takeWhile (· != '.')).length = back.length := by
    rw [List.reverse_append, List.reverse_cons, List.append_assoc,
      List.takeWhile_append_of_pos hkeep]
    simp
  rw [dot?, hback]
  simp only [List.length_append, List.length_cons]
  by_cases hfront : front = []
  · simp [hfront]
  · have := List.length_pos_of_ne_nil hfront
    by_cases hempty : back = []
    · simp [hempty]
    · have := List.length_pos_of_ne_nil hempty
      rw [if_neg (by omega), if_neg (by simp [hfront, hempty])]
      exact congrArg some (by omega)

theorem suffixOf_append {stem suffix : String} (hstem : stem ≠ "")
    (h : suffix.toList = '.' :: back) (hback : back ≠ []) (hdot : '.' ∉ back) :
    suffixOf (stem ++ suffix) = suffix ∧ stemOf (stem ++ suffix) = stem := by
  have hsplit : dot? (stem ++ suffix).toList = some stem.toList.length := by
    rw [String.toList_append, h, dot?_append hdot, if_neg (by simp [hstem, hback])]
  rw [suffixOf, stemOf, hsplit]
  simp [String.toList_append]

/-- A name that has a suffix is its stem and the suffix. -/
theorem eq_append_of_suffixOf {name : String} (h : suffixOf name ≠ "") :
    stemOf name ≠ "" ∧ name = stemOf name ++ suffixOf name := by
  cases hdot : dot? name.toList with
  | none =>
      rw [suffixOf, hdot] at h
      exact absurd rfl h
  | some i =>
      have hname : name = stemOf name ++ suffixOf name := by
        rw [stemOf, suffixOf, hdot]
        simp [← String.toList_inj]
      have hplace : 0 < i ∧ i ≤ name.toList.length := by
        unfold dot? at hdot
        dsimp only at hdot
        split at hdot
        · cases hdot
        · obtain rfl := Option.some.inj hdot
          omega
      refine ⟨fun hstem => ?_, hname⟩
      have hlength := congrArg (fun s : String => s.toList.length) hstem
      simp only [stemOf, hdot, String.toList_ofList, List.length_take, String.toList_empty,
        List.length_nil] at hlength
      omega

end Path

/-! ## Found names -/

namespace Finder
variable {f : Finder} {t : Tree} {root suffix : String}

theorem suffix_of_mem_walk {levels : Nat} {folder : Path} {path : String}
    (h : path ∈ f.walk t suffix levels folder) : suffix.toList <:+ path.toList := by
  induction levels generalizing folder with
  | zero => cases h
  | succ levels ih =>
      rw [walk] at h
      split at h
      · cases h
      · rename_i names hlist
        obtain ⟨name, hname, h⟩ := List.mem_flatMap.mp h
        dsimp only at h
        split at h
        · cases h
        · split at h
          · cases h
          · exact ih h
        · split at h
          · rename_i hends
            obtain rfl := List.mem_singleton.mp h
            refine (endsWith_iff.mp hends).trans ?_
            rcases folder.toList_toString_child name with hpath | ⟨front, hpath⟩
            · exact hpath ▸ List.suffix_rfl
            · rw [hpath]
              exact (List.suffix_cons _ _).trans (List.suffix_append _ _)
          · cases h

theorem suffix_of_mem_find {found : List String} {path : String}
    (h : f.find t root suffix = .ok found) (hpath : path ∈ found) :
    suffix.toList <:+ path.toList := by
  unfold find at h
  split at h
  · cases h
  · cases h
    exact suffix_of_mem_walk hpath

/-- A file with the suffix is found under the root, and it has a name. -/
def FindsName (f : Finder) (t : Tree) (root suffix name : String) : Prop :=
  ∃ paths, f.find t root suffix = .ok paths ∧ ∃ path ∈ paths, fileName path = name

theorem FindsName.slash_notMem {name : String} (h : f.FindsName t root suffix name) :
    '/' ∉ name.toList := by
  obtain ⟨paths, -, path, -, rfl⟩ := h
  exact slash_notMem_fileName path

/-- What is found ends with the suffix. -/
theorem FindsName.suffix_le {name : String} (h : f.FindsName t root suffix name)
    (hslash : '/' ∉ suffix.toList) (hlength : 2 ≤ suffix.toList.length) :
    suffix.toList <:+ name.toList := by
  obtain ⟨paths, hfind, path, hpath, rfl⟩ := h
  exact suffix_fileName (suffix_of_mem_find hfind hpath) hslash hlength

end Finder
end ModAtlas.Files
