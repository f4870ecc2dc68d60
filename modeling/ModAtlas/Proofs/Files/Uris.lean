import Mathlib.Data.List.TakeWhile
import ModAtlas.Files.Uri
import ModAtlas.Proofs.Files.Ways
import ModAtlas.Proofs.Text.Percent

/-!
# URIs of paths

The URI of a path leads somewhere, and that of an absolute path leads back to its text, but for the
slash before a drive. A text in normal form is the text of the path that it is read as.
-/

namespace ModAtlas.Files
open ModAtlas.Text

/-! ## Authorities -/

namespace Authority

/-- A character that stands for nothing in an authority but itself. -/
def IsOrdinary (c : Char) : Prop := c.toNat < 0x80 ∧ c ≠ '[' ∧ c ≠ ']'

theorem isSound_of_ordinary {authority : List Char} (h : ∀ c ∈ authority, IsOrdinary c) :
    isSound authority = true := by
  have hopen : authority.contains '[' = false := by
    simpa using fun hin => (h _ hin).2.1 rfl
  have hclose : authority.contains ']' = false := by
    simpa using fun hin => (h _ hin).2.2 rfl
  have hlike : ∀ n ∈ delimiterLike, 0x80 ≤ n := by decide
  have hany : authority.any (delimiterLike.contains ·.toNat) = false := by
    rw [List.any_eq_false]
    intro c hc hin
    have hhigh := hlike _ (List.contains_iff_mem.mp hin)
    exact absurd (h c hc).1 (Nat.not_lt.mpr hhigh)
  rw [isSound, bracketsFit, hopen, hclose, hany]
  rfl

theorem isOrdinary_of_mem_encode {text : List Char} {c : Char} (h : c ∈ Percent.encode text) :
    IsOrdinary c := by
  obtain ⟨hascii, hreserved⟩ := Percent.encode_char h
  refine ⟨hascii, ?_, ?_⟩
  all_goals
    rintro rfl
    exact hreserved (by decide)

end Authority

/-! ## URIs -/

namespace Uri
open Authority

/-- A file URI has the scheme before its authority. -/
theorem splitScheme_file (rest : List Char) :
    splitScheme (['f', 'i', 'l', 'e', ':'] ++ rest) = (['f', 'i', 'l', 'e'], rest) := by
  have hcut : cut? ':' (['f', 'i', 'l', 'e', ':'] ++ rest) = some (['f', 'i', 'l', 'e'], rest) := by
    simp [cut?]
  have hchars : (isLetter 'f' && ['f', 'i', 'l', 'e'].all isSchemeChar) = true := by decide
  have hlower : ['f', 'i', 'l', 'e'].map Char.toLower = ['f', 'i', 'l', 'e'] := by decide
  rw [splitScheme, hcut]
  dsimp only
  rw [hchars, hlower, if_pos rfl]

section OfPath
variable (p : Path)

/-- Nothing is dropped from the URI of a path. -/
theorem cleaned_ofPath : cleaned (ofPath p).toList =
    ['f', 'i', 'l', 'e', ':'] ++ '/' :: '/' :: Percent.encode p.toString.toList := by
  have hscheme : "file://".toList = ['f', 'i', 'l', 'e', ':', '/', '/'] := by decide
  have hkept : (Percent.encode p.toString.toList).filter
      (fun c => c != '\t' && c != '\r' && c != '\n') = Percent.encode p.toString.toList := by
    rw [List.filter_eq_self]
    intro c hc
    have hreserved := (Percent.encode_char hc).2
    simp only [Percent.reserved, List.mem_cons, not_or] at hreserved
    simp [hreserved]
  rw [ofPath, String.toList_append, hscheme, String.toList_ofList]
  simp [cleaned, hkept]

/-- The URI of a path leads somewhere. -/
theorem exists_toPath_ofPath : ∃ text, toPath (ofPath p) = .ok text := by
  let rest := Percent.encode p.toString.toList
  have hsplit : splitAuthority ('/' :: '/' :: rest) =
      (rest.takeWhile (!endsAuthority ·), rest.dropWhile (!endsAuthority ·)) := rfl
  have hsound : Authority.isSound (rest.takeWhile (!endsAuthority ·)) = true :=
    isSound_of_ordinary fun c hc => isOrdinary_of_mem_encode ((List.takeWhile_sublist _).mem hc)
  rw [toPath, cleaned_ofPath, splitScheme_file]
  dsimp only
  rw [hsplit]
  dsimp only
  rw [hsound, Bool.not_true, if_neg Bool.false_ne_true]
  split
  · exact ⟨_, rfl⟩
  · exact ⟨_, rfl⟩

end OfPath

theorem before_encode {c : Char} (h : c ∈ Percent.reserved) (text : List Char) :
    before c (Percent.encode text) = Percent.encode text := by
  unfold before
  rw [List.takeWhile_eq_self_iff]
  intro d hd
  simpa using fun heq : d = c => Percent.notMem_encode h (heq ▸ hd)

/-- The URI of an absolute path leads to its text, without the slash before a drive. -/
theorem toPath_ofPath {p : Path} {rest : List Char} (h : p.toString.toList = '/' :: rest) :
    toPath (ofPath p) = .ok (String.ofList (dropDriveSlash p.toString.toList)) := by
  -- the slash ends the authority, which is empty
  have hsplit : splitAuthority ('/' :: '/' :: Percent.encode p.toString.toList) =
      ([], Percent.encode p.toString.toList) := by
    rw [h, Percent.encode_slash]
    rfl
  rw [toPath, cleaned_ofPath, splitScheme_file]
  dsimp only
  rw [hsplit]
  dsimp only
  rw [if_neg (by decide), if_neg (by decide), before_encode (by decide), before_encode (by decide),
    Percent.decode_encode]

theorem dropDriveSlash_of_ne {text : List Char} (h : text[2]? ≠ some ':') :
    dropDriveSlash text = text := by
  unfold dropDriveSlash
  split
  · exact absurd rfl h
  · rfl

end Uri

/-! ## Paths in normal form -/

/-- A text is the normal form of an absolute path: its names, with one slash before each. A name may
be `..`, which reading a path keeps. -/
structure IsNormal (text : String) (names : List String) : Prop where
  text : text = "/" ++ String.intercalate "/" names
  named : ∀ name ∈ names, IsName name

namespace IsNormal
variable {text : String} {names : List String} (h : IsNormal text names)
include h

theorem toList_eq : text.toList = '/' :: (String.intercalate "/" names).toList := by
  rw [h.text, String.toList_append]
  rfl

/-- No second slash stands at the start. -/
theorem leadingSlashes_eq : Path.leadingSlashes text.toList = 1 := by
  have hbody : (String.intercalate "/" names).toList.takeWhile (· == '/') = [] := by
    cases names with
    | nil => rfl
    | cons name names =>
        obtain ⟨hne, -, hslash⟩ := h.named name List.mem_cons_self
        obtain ⟨c, rest, hname⟩ := List.exists_cons_of_ne_nil (String.toList_eq_nil_iff.not.mpr hne)
        have hc : c ≠ '/' := by
          rintro rfl
          exact hslash (hname ▸ List.mem_cons_self)
        have hhead : ∃ more, (String.intercalate "/" (name :: names)).toList = c :: more := by
          by_cases hlast : names = []
          · exact ⟨rest, by rw [hlast, String.intercalate_singleton, hname]⟩
          · rw [← List.singleton_append, String.intercalate_append_of_ne_nil (by simp) hlast,
              String.intercalate_singleton]
            simp [hname]
        obtain ⟨more, hmore⟩ := hhead
        rw [hmore, List.takeWhile_cons_of_neg (by simpa using hc)]
  rw [Path.leadingSlashes, h.toList_eq, List.takeWhile_cons_of_pos rfl, hbody]
  rfl

theorem segmentsOf_eq : Path.segmentsOf text.toList = names := by
  have hkept : names.filter (fun s => s != "" && s != ".") = names := by
    rw [List.filter_eq_self]
    intro name hname
    obtain ⟨hne, hdot, -⟩ := h.named name hname
    simp [hne, hdot]
  rw [Path.segmentsOf, h.toList_eq, splitOn_cons_self]
  by_cases hnone : names = []
  · subst hnone
    rfl
  · rw [splitOn_intercalate hnone fun name hname => (h.named name hname).2.2]
    simp [Function.comp_def, hkept]

/-- A text in normal form is read as the path of its names. -/
theorem ofString_eq : Path.ofString text = ⟨1, names⟩ := by
  rw [Path.ofString, h.leadingSlashes_eq, h.segmentsOf_eq]

/-- That path has this text. -/
theorem toString_ofString : (Path.ofString text).toString = text := by
  rw [h.ofString_eq, Path.toString, if_neg (by simp), h.text]
  rfl

end IsNormal
end ModAtlas.Files
