import ModAtlas.Files.Path
import ModAtlas.Json.Strict
import ModAtlas.Text.Lines

/-!
# File trees

The files that the program works on, as a value: folders with what they allow, files with their
octets, and symbolic links. `resolve` follows a path through links and `..`; reading and listing
say why they fail. Writing a file makes the folders above it. A file can always be read, and what a
folder allows does not keep a file from being written there.
-/

namespace ModAtlas.Files
open ModAtlas.Text

/-- What a folder allows: to list the names in it, and to look up what stands under one. -/
structure Access where
  listing : Bool
  lookup : Bool
deriving DecidableEq, Repr, Inhabited

/-- All is allowed. -/
def Access.full : Access := ⟨true, true⟩

/-- Nothing is allowed. -/
def Access.none : Access := ⟨false, false⟩

/-- What stands under a name. -/
inductive Entry where
  | file (octets : List UInt8)
  | folder (access : Access) (entries : List (String × Entry))
  | link (target : String)
deriving Repr, Inhabited

/-- What the system limits where it follows a path: how many links it follows, and how long a name
or a path is. -/
inductive Limit where
  | links
  | length
deriving DecidableEq, Repr

/-- Why a path cannot be used. A path that is too long is told from one with too many links by
the limit alone. -/
inductive FileError where
  | notFound
  | isFolder
  | notFolder
  | tooManyLinks {l : Limit}
  | refused
  | nulInPath
deriving DecidableEq, Repr

/-- A name or a path is too long. -/
def FileError.tooLong : FileError := .tooManyLinks (l := .length)

/-- Does the system refuse to look a path up? What stands there cannot be told then. -/
def FileError.isRefusal : FileError → Bool
  | .refused | .tooManyLinks (l := .length) => true
  | _ => false

/-- An empty folder. -/
def Entry.emptyFolder : Entry := .folder .full []

namespace Entry

/-- The entry under a name in a folder. -/
def child? (e : Entry) (name : String) : Option Entry :=
  match e with
  | .folder _ entries => entries.lookup name
  | _ => none

/-- The entry that a way down through folders leads to, links not followed. -/
def descend? (e : Entry) : List String → Option Entry
  | [] => some e
  | name :: rest => (e.child? name).bind (descend? · rest)

end Entry

/-- All files below the root folder, and the folder at which relative paths start. -/
structure Tree where
  root : Entry
  workingFolder : Path
deriving Repr, Inhabited

namespace Tree

/-- A path as seen from the root. -/
def absolute (t : Tree) (p : Path) : Path := t.workingFolder.join p

/-- Where following a path stops: at an entry, at a link with what is left of the path, or at an
error. A way is kept last name first. -/
inductive Halt where
  | arrived (way : List String) (entry : Entry)
  | linked (way : List String) (target : String) (left : List String)
  | failed (e : FileError)
deriving Repr

/-- The most octets of a name. -/
def nameLimit : Nat := 255

/-- Follows names from a folder whose way is known, up to the first link. -/
def stroll (root : Entry) (way : List String) : List String → Halt
  | [] =>
    match root.descend? way.reverse with
    | some entry => .arrived way entry
    | none => .failed .notFound
  | name :: left =>
    match root.descend? way.reverse with
    | some (.folder access entries) =>
      if !access.lookup then .failed .refused
      else if name = ".." then stroll root way.tail left
      else if nameLimit < name.utf8ByteSize then .failed .tooLong
      else
        match entries.lookup name with
        | some (.link target) => .linked way target left
        | some _ => stroll root (name :: way) left
        | none => .failed .notFound
    | some _ => .failed .notFolder
    | none => .failed .notFound

/-- Follows names from a folder through at most a number of links less one. -/
def resolveFrom (root : Entry) :
    Nat → List String → List String → Except FileError (List String × Entry)
  | 0, _, _ => .error (.tooManyLinks (l := .links))
  | links + 1, way, names =>
    match stroll root way names with
    | .arrived way entry => .ok (way.reverse, entry)
    | .failed e => .error e
    | .linked way target left =>
      let p := Path.ofString target
      resolveFrom root links (if p.isAbsolute then [] else way) (p.segments ++ left)

/-- The most links on the way to a file. -/
def linkLimit : Nat := 40

/-- The most octets of a path. -/
def pathLimit : Nat := 4095

/-- The real way to what a path leads to, and the entry there. -/
def resolve (t : Tree) (p : Path) : Except FileError (List String × Entry) :=
  if p.segments.any (·.toList.contains (Char.ofNat 0)) then .error .nulInPath
  else if pathLimit < p.toString.utf8ByteSize then .error .tooLong
  else resolveFrom t.root (linkLimit + 1) [] (t.absolute p).segments

/-- The entry that a path leads to. -/
def get (t : Tree) (p : Path) : Except FileError Entry := (t.resolve p).map (·.2)

/-- Does a path lead anywhere? -/
def exists? (t : Tree) (p : Path) : Bool :=
  match t.get p with
  | .ok _ => true
  | .error _ => false

/-- Does a path lead to a folder? One that the system refuses to look up does not. Where a folder
is asked for by its path, such a refusal ends what the program was about to do, which is left out. -/
def isFolder (t : Tree) (p : Path) : Bool :=
  match t.get p with
  | .ok (.folder ..) => true
  | _ => false

/-- Does a path lead to a folder, as far as that can be told? -/
def isFolder? (t : Tree) (p : Path) : Except FileError Bool :=
  match t.get p with
  | .ok (.folder ..) => .ok true
  | .ok _ => .ok false
  | .error e => if e.isRefusal then .error e else .ok false

/-- The names in a folder, sorted. -/
def list (t : Tree) (p : Path) : Except FileError (List String) :=
  match t.get p with
  | .error e => .error e
  | .ok (.folder access entries) =>
    if access.listing then .ok (sorted (entries.map (·.1))) else .error .refused
  | .ok _ => .error .notFolder

/-- The octets of a file. -/
def octets (t : Tree) (p : Path) : Except FileError (List UInt8) :=
  match t.get p with
  | .error e => .error e
  | .ok (.file octets) => .ok octets
  | .ok (.folder ..) => .error .isFolder
  | .ok (.link _) => .error .notFound

/-! ## Changes -/

/-- Puts an entry under a name, in place of one that is there. -/
def putName (name : String) (entry : Entry) : List (String × Entry) → List (String × Entry)
  | [] => [(name, entry)]
  | (n, e) :: rest => if n = name then (n, entry) :: rest else (n, e) :: putName name entry rest

/-- Puts an entry at the end of a way down, making the folders on the way. -/
def putAt (entry : Entry) : List String → Entry → Entry
  | [], _ => entry
  | name :: rest, .folder access entries =>
    .folder access
      (putName name (putAt entry rest ((entries.lookup name).getD .emptyFolder)) entries)
  | name :: rest, _ => .folder .full [(name, putAt entry rest .emptyFolder)]

/-- Drops the entry at the end of a way down. -/
def dropAt : List String → Entry → Entry
  | [name], .folder access entries => .folder access (entries.filter (·.1 != name))
  | name :: rest, .folder access entries =>
    match entries.lookup name with
    | some e => .folder access (putName name (dropAt rest e) entries)
    | none => .folder access entries
  | _, e => e

/-- The real way to where a path puts something: links to folders are followed. -/
def placeOf (t : Tree) (p : Path) : List String :=
  let p := t.absolute p
  match p.segments.getLast? with
  | none => []
  | some name =>
    match t.resolve ⟨p.slashes, p.segments.dropLast⟩ with
    | .ok (way, _) => way ++ [name]
    | .error _ => p.segments

/-- The tree with an entry at a path. -/
def put (t : Tree) (p : Path) (entry : Entry) : Tree :=
  { t with root := putAt entry (t.placeOf p) t.root }

/-- The tree without what stands at a path. -/
def drop (t : Tree) (p : Path) : Tree := { t with root := dropAt (t.placeOf p) t.root }

/-- The tree with a folder at a path; what is there already stays. -/
def ensureFolder (t : Tree) (p : Path) : Tree :=
  if t.exists? p then t else t.put p .emptyFolder

end Tree

/-! ## Reading data files -/

/-- Why a data file cannot be read. -/
inductive ReadError where
  | file (e : FileError)
  | notJson
  | notObject
deriving DecidableEq, Repr

/-- The JSON value of a file. -/
def readJson (t : Tree) (p : Path) : Except ReadError Json.Value :=
  match t.octets p with
  | .error e => .error (.file e)
  | .ok octets =>
    match Json.Strict.readOctets octets with
    | none => .error .notJson
    | some v => .ok v

/-- The members of a file that holds a JSON object. -/
def readJsonObject (t : Tree) (p : Path) : Except ReadError Json.Members :=
  match readJson t p with
  | .error e => .error e
  | .ok (.obj members) => .ok members
  | .ok _ => .error .notObject

/-- The text of a file: one byte order mark dropped, every line end a line feed. -/
def readText (t : Tree) (p : Path) : Except FileError (Option (List Char)) :=
  (t.octets p).map fun octets =>
    (Utf8.decode? (Utf8.dropMark octets)).map Text.unifyNewlines

end ModAtlas.Files
