import ModAtlas.Schema.Prepared
import ModAtlas.Schema.Association
import ModAtlas.Files.Tree
import ModAtlas.Files.Uri

/-!
# Schema library

The schemas of documents, read from a folder and kept once prepared. Schemas that come with the
program are read from a folder of their own, which also stands in for a missing one. A schema
that cannot be read, or is no object, is no schema of a document.

## Implementation notes

Preparing a schema fails only for what the schema holds. That a deeply nested one can use up the
stack of a running program is left out.
-/

namespace ModAtlas.Schema
open ModAtlas.Files ModAtlas.Json

/-- The schemas prepared so far by their URIs, and the two folders. -/
structure Library where
  folder : Path
  bundled : Path
  loaded : List (String × Prepared)
deriving Repr, Inhabited

/-- Why there is no schema at a URI. -/
inductive LibraryError where
  | unreadable (uri : String)
  | notObject (uri : String)
  | badUri
  | unpreparable (e : PrepareError)
deriving DecidableEq, Repr

/-- The wording of an error, where it has one. -/
def LibraryError.message : LibraryError → String
  | .unreadable uri => "Schema request failed for " ++ uri
  | .notObject uri => "Schema " ++ uri ++ " is not a JSON object"
  | .badUri => ""
  | .unpreparable _ => ""

namespace Library

/-- A library for a folder; without a folder, or if there is none at the path, the bundled one. -/
def opened (t : Tree) (bundled : Path) (folder : Option String) : Library :=
  match folder with
  | none => ⟨bundled, bundled, []⟩
  | some text =>
    if text != "" && t.isFolder (Path.ofString text) then ⟨Path.ofString text, bundled, []⟩
    else ⟨bundled, bundled, []⟩

/-- How many schemas are loaded. -/
def size (l : Library) : Nat := l.loaded.length

/-- The URI of a schema file. -/
def uriFor (l : Library) (t : Tree) (schemaFile : String) : String :=
  let folder := if isBundled schemaFile then l.bundled else l.folder
  Uri.ofPath (t.absolute (folder.join (Path.ofString schemaFile)))

/-- Reads and prepares the schema at a URI. -/
def fetch (t : Tree) (uri : String) : Except LibraryError Prepared :=
  match Uri.toPath uri with
  | .error _ => .error .badUri
  | .ok text =>
    let path := Path.ofString text
    match readJson t path with
    | .error _ => .error (.unreadable uri)
    | .ok (.obj members) =>
      match prepare path.name (.obj members) with
      | .error e => .error (.unpreparable e)
      | .ok prepared => .ok prepared
    | .ok _ => .error (.notObject uri)

/-- The schema at a URI, from the library or else read, and the library with it. -/
def resolve (l : Library) (t : Tree) (uri : String) : Except LibraryError (Prepared × Library) :=
  match l.loaded.lookup uri with
  | some prepared => .ok (prepared, l)
  | none => (fetch t uri).map fun p => (p, { l with loaded := l.loaded ++ [(uri, p)] })

/-- The schema of a document by its file name, if it has one that can be read. -/
def forDocument (l : Library) (t : Tree) (fileName : String) :
    Except PrepareError (Option Prepared × Library) :=
  match schemaFileFor fileName with
  | none => .ok (none, l)
  | some schemaFile =>
    match l.resolve t (l.uriFor t schemaFile) with
    | .ok (p, l) => .ok (some p, l)
    | .error (.unpreparable e) => .error e
    | .error _ => .ok (none, l)

/-- Forgets the loaded schemas. -/
def reload (l : Library) : Library := { l with loaded := [] }

end Library

/-! ## Bundled schemas -/

/-- The text of the schema of data without a published one. -/
def freeSchemaText : String :=
"\x7b
  \"$schema\": \"http://json-schema.org/draft-07/schema#\",
  \"title\": \"Unknown\",
  \"description\": \"Data kind without a published schema. Any JSON value is accepted.\",
  \"type\": [\"object\", \"array\", \"string\", \"number\", \"boolean\", \"null\"]
\x7d
"

/-- The text of the schema of entity manifests. -/
def manifestSchemaText : String :=
"\x7b
  \"$schema\": \"http://json-schema.org/draft-07/schema#\",
  \"title\": \"Entity Manifest\",
  \"description\": \"Lists every entity of one kind that the game loads.\",
  \"type\": \"object\",
  \"properties\": \x7b
    \"ids\": \x7b
      \"title\": \"Entity ids\",
      \"description\": \"File names of the entities, without extension.\",
      \"type\": \"array\",
      \"items\": \x7b
        \"type\": \"string\"
      \x7d,
      \"uniqueItems\": true
    \x7d
  \x7d,
  \"required\": [\"ids\"],
  \"additionalProperties\": false
\x7d
"

/-- The files of the bundled folder. -/
def bundledFiles : List (String × String) :=
  [(freeSchema, freeSchemaText), (manifestSchema, manifestSchemaText)]

/-- The tree with the bundled schemas in a folder. -/
def withBundled (t : Tree) (folder : Path) : Tree :=
  bundledFiles.foldl (fun t f =>
    t.put (folder.child f.1) (.file (Text.Utf8.encode f.2.toList))) t

end ModAtlas.Schema
