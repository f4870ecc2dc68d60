import ModAtlas.Proofs.Files.Uris
import ModAtlas.Reference.Definition
import ModAtlas.Schema.Library

/-!
# Files behind URIs

The URI of a file leads back to the file: to its path, to its name, and to its octets where a
schema is read. A path that begins with a drive is the exception, for its first slash is taken to
belong to the URI.
-/

namespace ModAtlas.Schema
open ModAtlas.Files ModAtlas.Json ModAtlas.Reference ModAtlas.Text

namespace Library

/-- The path of a schema file. -/
def pathFor (l : Library) (t : Tree) (schemaFile : String) : Path :=
  t.absolute ((if isBundled schemaFile then l.bundled else l.folder).join (.ofString schemaFile))

/-- What is fetched under a URI from the file at a path. -/
def fetchFile (t : Tree) (uri : String) (path : Path) : Except LibraryError Prepared :=
  match readJson t path with
  | .error _ => .error (.unreadable uri)
  | .ok (.obj members) => (prepare path.name (.obj members)).mapError .unpreparable
  | .ok _ => .error (.notObject uri)

theorem fetch_eq {t : Tree} {uri text : String} (h : Uri.toPath uri = .ok text) :
    fetch t uri = fetchFile t uri (.ofString text) := by
  unfold fetch fetchFile
  rw [h]
  dsimp only
  cases readJson t (.ofString text) with
  | error e => rfl
  | ok v =>
      cases v with
      | obj members =>
          dsimp only
          cases prepare (Path.ofString text).name (.obj members) <;> rfl
      | _ => rfl

end Library

section Normal
variable {text : String} {names : List String} (h : IsNormal text names) (t : Tree)
include h

theorem absolute_ofString : t.absolute (.ofString text) = .ofString text := by
  rw [Tree.absolute, Path.join, Path.isAbsolute, h.ofString_eq]
  rfl

/-- The URI of a file leads to its path, without the slash before a drive. -/
theorem toPath_uriOf :
    Uri.toPath (uriOf t text) = .ok (String.ofList (Uri.dropDriveSlash text.toList)) := by
  have hback := h.toString_ofString
  rw [uriOf, absolute_ofString h, Uri.toPath_ofPath (hback.symm ▸ h.toList_eq), hback]

/-- The URI of a file in normal form leads back to its path unless a colon is the second character
of its first name, and the file is the one that is read, also for a schema. Where the first name
is a drive, the URI leads to the path without its first slash. -/
theorem uriOf_leads_back :
    (text.toList[2]? ≠ some ':' →
      Uri.toPath (uriOf t text) = .ok text ∧
      Uri.fileName (uriOf t text) = .ok (Path.ofString text).name ∧
      Library.fetch t (uriOf t text) =
        Library.fetchFile t (uriOf t text) (.ofString text) ∧
      ∀ (l : Library) (file : String), l.pathFor t file = .ofString text →
        l.uriFor t file = uriOf t text) ∧
    ∀ (drive : Char) (more : List String), Uri.isLetter drive = true →
      names = String.ofList [drive, ':'] :: more →
        Uri.toPath (uriOf t text) = .ok (String.intercalate "/" names) := by
  have hpath := toPath_uriOf h t
  constructor
  · intro hcolon
    rw [Uri.dropDriveSlash_of_ne hcolon, String.ofList_toList] at hpath
    refine ⟨hpath, ?_, Library.fetch_eq hpath, ?_⟩
    · rw [Uri.fileName, hpath]
      rfl
    · intro l file hfile
      rw [uriOf, absolute_ofString h, ← hfile]
      rfl
  · rintro drive more - rfl
    have hdrive : ∃ rest, (String.intercalate "/" (String.ofList [drive, ':'] :: more)).toList =
        drive :: ':' :: rest := by
      by_cases hlast : more = []
      · exact ⟨[], by simp [hlast]⟩
      · rw [← List.singleton_append, String.intercalate_append_of_ne_nil (by simp) hlast]
        simp
    obtain ⟨rest, hrest⟩ := hdrive
    have hdrop : Uri.dropDriveSlash text.toList = drive :: ':' :: rest := by
      rw [h.toList_eq, hrest]
      rfl
    rw [hpath, hdrop, ← hrest, String.ofList_toList]

end Normal

/-- The URI of a path with reserved characters, escapes and characters beyond ASCII in it. -/
theorem uriOf_leads_back_reserved :
    IsNormal "/50% é/a#?%41.unit" ["50% é", "a#?%41.unit"] ∧
      Uri.toPath (uriOf ⟨.emptyFolder, ⟨1, []⟩⟩ "/50% é/a#?%41.unit") =
        .ok "/50% é/a#?%41.unit" := by
  have h : IsNormal "/50% é/a#?%41.unit" ["50% é", "a#?%41.unit"] := ⟨by decide, by decide⟩
  exact ⟨h, ((uriOf_leads_back h _).1 (by decide)).1⟩

/-- A path that begins with a drive loses its first slash. -/
theorem not_forall_toPath_uriOf : ¬ ∀ (text : String) (names : List String),
    IsNormal text names → ∀ t, Uri.toPath (uriOf t text) = .ok text := by
  intro hall
  have h : IsNormal "/C:/mod" ["C:", "mod"] := ⟨by decide, by decide⟩
  have hpath := hall _ _ h ⟨.emptyFolder, ⟨1, []⟩⟩
  rw [toPath_uriOf h] at hpath
  exact absurd (Except.ok.inj hpath) (by decide)

end ModAtlas.Schema
