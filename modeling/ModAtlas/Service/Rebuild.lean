import ModAtlas.Workspace.Atlas

/-!
# Rebuilds

A rebuild surveys a workspace anew. Its parts may be gathered in any order: the paths of the
indexed files, the members of each category, and the localized texts. Members go into the atlas
as soon as they are read; paths and texts go in together when the rebuild is finished.
-/

namespace ModAtlas.Service
open ModAtlas.Files ModAtlas.Reference ModAtlas.Workspace

/-- A rebuild under way: what it is for, what it has read and what is still missing. -/
structure Rebuild where
  root : String
  language : String
  paths : Option (Except FileError (List String))
  missing : List Category
  texts : Option (Except FileError (List LanguageFile))
  finished : Bool

/-- The parts of a rebuild. -/
inductive Part where
  | paths
  | members (category : Category)
  | texts
deriving DecidableEq, Repr

namespace Rebuild

/-- A rebuild that has read nothing. -/
def start (root language : String) : Rebuild := ⟨root, language, none, Category.all, none, false⟩

/-- All parts, in the order in which they are gathered when nothing else is asked for. -/
def parts : List Part := [.paths] ++ Category.all.map .members ++ [.texts]

/-- The localized texts of a workspace. -/
def readTexts (t : Tree) (finder : Finder) (root : String) :
    Except FileError (List LanguageFile) :=
  (finder.find t root localizedSuffix).map (readLanguageFiles t)

/-- Gathers a part, unless it has been gathered. -/
def gather (t : Tree) (finder : Finder) (r : Rebuild) (atlas : Atlas) : Part → Rebuild × Atlas
  | .paths =>
    match r.paths with
    | some _ => (r, atlas)
    | none => ({ r with paths := some (collect t finder r.root trackedSuffixes) }, atlas)
  | .texts =>
    match r.texts with
    | some _ => (r, atlas)
    | none => ({ r with texts := some (readTexts t finder r.root) }, atlas)
  | .members c =>
    if c ∈ r.missing then
      ({ r with missing := r.missing.filter (· ≠ c) },
        { atlas with
          members := atlas.members.install c (load t finder r.root r.language c) })
    else (r, atlas)

/-- Could the paths or the texts not be read? -/
def hasFailed (r : Rebuild) : Bool :=
  match r.paths, r.texts with
  | some (.error _), _ => true
  | _, some (.error _) => true
  | _, _ => false

/-- Can the rebuild be finished? It can when every part was gathered, or when one has failed. -/
def isComplete (r : Rebuild) : Bool :=
  r.hasFailed || (r.paths.isSome && r.texts.isSome && r.missing.isEmpty)

/-- Puts paths and texts into the atlas; if one of them failed, neither. -/
def deliver (r : Rebuild) (atlas : Atlas) : Atlas :=
  match r.paths, r.texts with
  | some (.ok paths), some (.ok files) =>
    { atlas with index := .ofPaths paths, localization := .ofFiles files }
  | _, _ => atlas

end Rebuild
end ModAtlas.Service
