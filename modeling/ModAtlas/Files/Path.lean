import ModAtlas.Text.Piece

/-!
# Paths

A path is a list of segments, relative or absolute. Reading one drops empty segments and `.`
and keeps `..`; exactly two slashes at the start stay two. The last segment is the name; a name
splits into stem and suffix at its last dot, unless that dot is its first or last character.
-/

namespace ModAtlas.Files
open ModAtlas.Text

/-- A path: how many slashes it starts with (none, one or two) and its segments. -/
structure Path where
  slashes : Nat
  segments : List String
deriving DecidableEq, Repr, Inhabited

namespace Path

/-- How many slashes a path text stands for at its start. -/
def leadingSlashes (text : List Char) : Nat :=
  match (text.takeWhile (· == '/')).length with
  | 0 => 0
  | 2 => 2
  | _ => 1

/-- The segments of a path text. -/
def segmentsOf (text : List Char) : List String :=
  ((splitOn '/' text).map String.ofList).filter fun s => s != "" && s != "."

/-- The path that a text writes. -/
def ofString (text : String) : Path := ⟨leadingSlashes text.toList, segmentsOf text.toList⟩

/-- The text of a path; an empty relative path is `.`. -/
def toString (p : Path) : String :=
  let body := String.intercalate "/" p.segments
  if p.slashes = 0 ∧ p.segments = [] then "."
  else String.ofList (List.replicate p.slashes '/') ++ body

/-- Does it start at the root? -/
def isAbsolute (p : Path) : Bool := p.slashes != 0

/-- A path seen from another one; an absolute path stays itself. -/
def join (base p : Path) : Path :=
  if p.isAbsolute then p else ⟨base.slashes, base.segments ++ p.segments⟩

/-- A path one segment longer. -/
def child (p : Path) (name : String) : Path := ⟨p.slashes, p.segments ++ [name]⟩

/-- The last segment, empty if there is none. -/
def name (p : Path) : String := p.segments.getLast?.getD ""

/-- The place of the dot at which a name splits. -/
def dot? (name : List Char) : Option Nat :=
  let fromEnd := (name.reverse.takeWhile (· != '.')).length
  let place := name.length - 1 - fromEnd
  if fromEnd = 0 ∨ name.length ≤ fromEnd + 1 then none else some place

/-- The name without its suffix. -/
def stemOf (name : String) : String :=
  match dot? name.toList with
  | none => name
  | some i => String.ofList (name.toList.take i)

/-- The part of the name from its last dot on. -/
def suffixOf (name : String) : String :=
  match dot? name.toList with
  | none => ""
  | some i => String.ofList (name.toList.drop i)

end Path

/-- The name of the file that a path text writes. -/
def fileName (path : String) : String := (Path.ofString path).name

/-- The name of a file up to its first dot: what the file is known by. -/
def identifierOf (path : String) : String :=
  String.ofList (before '.' (fileName path).toList)

end ModAtlas.Files
