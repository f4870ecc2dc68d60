import ModAtlas.Reference.Classification
import ModAtlas.Workspace.IdentifierIndex
import ModAtlas.Workspace.Localization
import ModAtlas.Workspace.MemberStore
import ModAtlas.Files.Uri

/-!
# Definitions

Where a reference is defined: a localization key in the files of the language, anything else in
the files that are known by its value, or in the file its category found it in.
-/

namespace ModAtlas.Reference
open ModAtlas.Document ModAtlas.Workspace ModAtlas.Files ModAtlas.Text

/-- A range in a file. -/
structure Location where
  uri : String
  range : Text.Range
deriving DecidableEq, Repr

/-- The start of a file. -/
def fileStart : Text.Range := ⟨⟨0, 0⟩, ⟨0, 0⟩⟩

/-- The URI of a path. -/
def uriOf (t : Tree) (path : String) : String := Uri.ofPath (t.absolute (Path.ofString path))

/-- Where the files of a language have a key, quotes included. -/
def localizedLocations (t : Tree) (index : IdentifierIndex) (language key : String) :
    List Location :=
  ((index.lookup language).getD []).filterMap fun path =>
    if endsWith path.toList localizedSuffix.toList then
      (keyPositionAt t path key).map fun p =>
        ⟨uriOf t path, ⟨p, ⟨p.line, p.character + key.length + 2⟩⟩⟩
    else none

/-- The files that a value is known by, or else the file its category found it in. -/
def fileLocations (t : Tree) (index : IdentifierIndex) (members : MemberStore)
    (category : Category) (value : String) : List Location :=
  let paths := match (index.lookup (identifierOf value)).getD [] with
    | [] => (members.locate category value).toList.filter (· != "")
    | paths => paths
  paths.map fun path => ⟨uriOf t path, fileStart⟩

/-- Where the reference at an offset is defined. -/
def Analysis.definition (a : Analysis) (t : Tree) (index : IdentifierIndex)
    (members : MemberStore) (language : String) (offset : Int) : List Location :=
  match a.stringAt offset with
  | none => []
  | some (p, value) =>
    match a.classify p with
    | none => []
    | some .localizedText => localizedLocations t index language value
    | some category => fileLocations t index members category value

end ModAtlas.Reference
