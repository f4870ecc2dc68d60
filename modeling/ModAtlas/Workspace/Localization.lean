import ModAtlas.Files.Finder
import ModAtlas.Reference.Category
import ModAtlas.Text.Lines
import ModAtlas.Text.Blank

/-!
# Localized texts

The texts of every language of a workspace. A localized text file holds one language, named by
the file; of several files of one language the first counts. `keyPosition` finds the line of a
key in the text of such a file.
-/

namespace ModAtlas.Workspace
open ModAtlas.Files ModAtlas.Text

/-- One localized text file: its language and its texts by key. -/
structure LanguageFile where
  language : String
  path : String
  entries : List (String × String)
deriving DecidableEq, Repr, Inhabited

/-- The languages of a workspace in the order of their files. -/
structure Localization where
  files : List LanguageFile
deriving DecidableEq, Repr, Inhabited

/-- The entries of a file's members whose values are strings. -/
def textEntries (members : Json.Members) : List (String × String) :=
  members.filterMap fun m => m.2.text?.map (m.1, ·)

/-- The localized text file at a path, if it can be read. -/
def readLanguageFile? (t : Tree) (path : String) : Option LanguageFile :=
  match readJsonObject t (Path.ofString path) with
  | .ok members => some ⟨identifierOf path, path, textEntries members⟩
  | .error _ => none

/-- The localized text files at paths; unreadable ones are passed over. -/
def readLanguageFiles (t : Tree) (paths : List String) : List LanguageFile :=
  paths.filterMap (readLanguageFile? t)

namespace Localization

/-- No languages. -/
def empty : Localization := ⟨[]⟩

/-- The file of a language. -/
def file? (l : Localization) (language : String) : Option LanguageFile :=
  l.files.find? (·.language == language)

/-- Adds a file unless its language has one. -/
def add (l : Localization) (file : LanguageFile) : Localization :=
  if (l.file? file.language).isSome then l else ⟨l.files ++ [file]⟩

/-- The languages of files. -/
def ofFiles (files : List LanguageFile) : Localization := files.foldl add empty

/-- The languages in order. -/
def languages (l : Localization) : List String := l.files.map (·.language)

/-- The text of a key in a language. -/
def value (l : Localization) (language key : String) : Option String :=
  (l.file? language).bind fun f => f.entries.lookup key

end Localization

/-! ## Keys in a file -/

/-- Where a quoted key occurs in a text: line, character and the text after it on the line. -/
def keyOccurrences (key : String) (text : List Char) : List (Nat × Nat × List Char) :=
  let lines := splitLines text
  ((List.range lines.length).zip lines).flatMap fun l =>
    (occurrences ('"' :: (key.toList ++ ['"'])) 0 l.2).map fun o => (l.1, o.1, o.2)

/-- Does a colon follow, white space apart? -/
def colonFollows (after : List Char) : Bool := (after.dropWhile isBlank).head? == some ':'

/-- Where a text has a quoted key: the first occurrence with a colon behind it, or else the first
occurrence. -/
def keyPosition (key : String) (text : List Char) : Option Position :=
  let found := keyOccurrences key text
  let best := (found.find? fun o => colonFollows o.2.2).or found.head?
  best.map fun o => ⟨o.1, o.2.1⟩

/-- Where a file has a quoted key; a file that cannot be read has none. -/
def keyPositionAt (t : Tree) (path key : String) : Option Position :=
  match readText t (Path.ofString path) with
  | .ok (some text) => keyPosition key text
  | _ => none

end ModAtlas.Workspace
