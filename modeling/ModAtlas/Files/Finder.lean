import ModAtlas.Files.Tree

/-!
# Finding files

The files below a folder whose names end with a suffix, as absolute paths in the order of their
names. Folders are entered down to a depth, some names never; what cannot be listed is passed
over, and so is what cannot be looked up. Links are followed, so the depth also ends cycles of
links.
-/

namespace ModAtlas.Files
open ModAtlas.Text

/-- How files are found: how deep below the root, and which folders are never entered. -/
structure Finder where
  maxDepth : Int
  ignored : List String
deriving DecidableEq, Repr

namespace Finder

/-- Folders of tools. -/
def ignoredNames : List String := [".git", ".vscode", ".vs", "node_modules"]

/-- The finder of a depth that passes over the folders of tools. -/
def ofDepth (maxDepth : Int) : Finder := ⟨maxDepth, ignoredNames⟩

/-- The files in and below a folder, for a number of levels. -/
def walk (f : Finder) (t : Tree) (suffix : String) : Nat → Path → List String
  | 0, _ => []
  | levels + 1, folder =>
    match t.list folder with
    | .error _ => []
    | .ok names =>
      names.flatMap fun name =>
        let entry := folder.child name
        match t.isFolder? entry with
        | .error _ => []
        | .ok true => if f.ignored.contains name then [] else walk f t suffix levels entry
        | .ok false => if endsWith name.toList suffix.toList then [entry.toString] else []

/-- The files below a root whose names end with a suffix. -/
def find (f : Finder) (t : Tree) (root suffix : String) : Except FileError (List String) :=
  if root.toList.contains (Char.ofNat 0) && 0 ≤ f.maxDepth then .error .nulInPath
  else .ok (f.walk t suffix (f.maxDepth + 1).toNat (t.absolute (Path.ofString root)))

end Finder

/-- Of several paths the first with a given file name, or else the first. -/
def pickNamed (paths : List String) (name : String) : Option String :=
  match paths.find? fun p => fileName p == name with
  | some p => some p
  | none => paths.head?

end ModAtlas.Files
