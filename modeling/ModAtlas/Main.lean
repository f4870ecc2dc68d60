import ModAtlas.CommandLine.Run
import ModAtlas.Json.Compact
import Std.Time.DateTime.Timestamp

/-!
# The program

Brings what a run looks at from the disk into a file tree, runs, and writes down what the run
leaves behind: lines, the journal and the settings. All decisions are made by `CommandLine.run`.
-/

namespace ModAtlas.CommandLine
open ModAtlas.Files ModAtlas.Json ModAtlas.Settings

/-! ## Reading -/

/-- Files below a folder whose octets a run may read. Of other files only the names count. -/
def isDataFile (name : String) : Bool :=
  [Reference.localizedSuffix, Reference.manifestFile "", ".json"].any fun suffix =>
    Text.endsWith name.toList suffix.toList

/-- A file with its octets, if they are wanted and can be read. -/
def readFile (wanted : Bool) (d : IO.FS.DirEntry) : IO Entry := do
  if wanted then
    try return .file (← IO.FS.readBinFile d.path).toList
    catch _ => return .file []
  else return .file []

/-- Does the system refuse to say what stands at a path? Its number for a name that is too long
is 36. -/
def isRefused (e : IO.Error) : Bool :=
  match e with
  | .permissionDenied .. => true
  | .invalidArgument _ code _ => code == 36
  | _ => false

/-- A link that the system refuses to follow. -/
def refusedLink : Entry := .link (String.ofList (List.replicate (Tree.nameLimit + 1) '_'))

/-- What a folder allows that could be listed. -/
def accessOf (d : IO.FS.DirEntry) : IO Access := do
  match ← (d.path / ".").metadata.toBaseIO with
  | .ok _ => return .full
  | .error _ => return ⟨true, false⟩

/-- What an entry of a folder is, folders down to a number of levels. -/
def readEntry : Nat → Bool → IO.FS.DirEntry → IO Entry
  | 0, _, _ => return .emptyFolder
  | levels + 1, wanted, d => do
    if ← d.path.isDir then
      try
        let mut entries : List (String × Entry) := []
        for child in ← d.path.readDir do
          let entry ← readEntry levels (isDataFile child.fileName) child
          entries := (child.fileName, entry) :: entries
        return .folder (← accessOf d) entries
      catch _ => return .folder .none []
    else
      match ← d.path.metadata.toBaseIO with
      | .ok _ => readFile wanted d
      | .error e => return if isRefused e then refusedLink else .link d.path.toString

/-- The entry of the disk at an absolute path. -/
def entryAt (p : Path) : IO.FS.DirEntry :=
  match p.segments.getLast? with
  | some name => ⟨Path.toString ⟨p.slashes, p.segments.dropLast⟩, name⟩
  | none => ⟨"/", "."⟩

/-- Brings what stands at the end of a way down into a tree. Links on the way stay links. -/
def load (levels : Nat) (t : Tree) (here : Path) : List String → IO Tree
  | [] => return t.put here (← readEntry levels true (entryAt here))
  | ".." :: rest => load levels t ⟨here.slashes, here.segments.dropLast⟩ rest
  | name :: rest => do
    let next := here.child name
    let d := entryAt next
    unless ← d.path.pathExists do return t
    let real := Path.ofString (← IO.FS.realPath d.path).toString
    let t := if real = next then t else t.put next (.link real.toString)
    let t := if ← d.path.isDir then t.ensureFolder real else t.put real (.file [])
    load levels t real rest

/-- The most levels of folders that a run looks into: the deepest search and the root itself. -/
def folderLevels : Nat := 34

/-- What a run looks at, outer folders first: the schema folder, the workspace, the documents and
the file of the journal. -/
def lookedAt (store : Store) (arguments : List String) : List Path :=
  match Arguments.read arguments with
  | .error _ => []
  | .ok arguments =>
    let settings : Profile := ⟨arguments.profile, store⟩
    let given (text : Option String) (set : Option Path) : List Path :=
      ((Run.given? text).map Path.ofString).toList ++ set.toList
    given arguments.schemas settings.schemas? ++
      given arguments.workspace settings.workspace? ++
      arguments.files.map Path.ofString ++ [Path.ofString journalFile]

/-- The tree of all that a run looks at. -/
def readTree (bundled : Path) (paths : List Path) : IO Tree := do
  let folder := Path.ofString (← IO.currentDir).toString
  let mut t : Tree := ⟨.emptyFolder, folder⟩
  t := t.ensureFolder folder
  for p in paths do
    t ← load folderLevels t ⟨1, []⟩ (t.absolute p).segments
  return Schema.withBundled t bundled

/-- The settings on the disk. -/
def readStore : IO Store := do
  let d : IO.FS.DirEntry := ⟨".", storeFile⟩
  unless ← d.path.pathExists do return ⟨[], .noError⟩
  try
    match Strict.readOctets (← IO.FS.readBinFile d.path).toList with
    | some (.obj members) => return ⟨members, .noError⟩
    | _ => return ⟨[], .formatError⟩
  catch _ => return ⟨[], .accessError⟩

/-! ## Writing -/

/-- Writes the settings down if they were changed. -/
def writeStore (before after : Store) : IO Unit := do
  unless Value.identical (.obj before.entries) (.obj after.entries) do
    if after.status = .noError then
      IO.FS.writeFile storeFile ((Value.obj after.entries).compact ++ "\n")

/-- Writes down what the journal has for the console and for its file. -/
def writeJournal (journal : Journal.Outlets) : IO Unit := do
  for line in (journal.console.map (·.lines)).getD [] do IO.eprintln line
  match journal.file with
  | none => return
  | some outlet =>
    let path := Path.ofString journalFile
    IO.FS.createDirAll (Path.toString ⟨path.slashes, path.segments.dropLast⟩)
    let file ← IO.FS.Handle.mk journalFile .append
    for line in outlet.lines do file.putStrLn line

/-- Where the bundled schemas stand in the tree of a run. -/
def bundledFolder : Path := .ofString "/usr/share/sins-lsp/schemas"

/-- Runs a command line on the disk. -/
def runOnDisk (arguments : List String) : IO UInt32 := do
  let store ← readStore
  let tree ← readTree bundledFolder (lookedAt store arguments)
  let now ← Std.Time.Timestamp.now
  match run ⟨tree, bundledFolder, .int now.toSecondsSinceUnixEpoch.val, store⟩ arguments with
  | .error _ =>
    IO.eprintln "sins-lsp: error: the settings cannot be used"
    return 1
  | .ok outcome =>
    match outcome.journal with
    | some journal => writeJournal journal
    | none => if outcome.exit = exitSetup then usageLines.forM fun line => IO.eprintln line
    outcome.printed.forM fun line => IO.println line
    writeStore store outcome.store
    return outcome.exit.toUInt32

end ModAtlas.CommandLine

/-- Runs the command line that the program was called with. -/
def main (arguments : List String) : IO UInt32 :=
  ModAtlas.CommandLine.runOnDisk arguments
