import ModAtlas.Journal.EditorLog
import ModAtlas.Settings.Logging
import ModAtlas.Files.Tree

/-!
# Outlets

A journal hands every record to its outlets: the console, a file, and the log of the editor, which
is always there. Opening one notes which outlets it has. A file that cannot be opened is left out.
-/

namespace ModAtlas.Journal
open ModAtlas.Files ModAtlas.Settings

/-- Which outlets a journal is to have. -/
structure Options where
  hasConsole : Bool
  consoleLevel : String
  hasColors : Bool
  hasFile : Bool
  editorLevel : String
  editorLines : Int
deriving DecidableEq, Repr

/-- The outlets without any settings. -/
def Options.standard : Options := ⟨true, "INFO", false, false, "INFO", EditorLog.standardCapacity⟩

/-- The outlets that settings ask for. -/
def Options.ofSettings (s : Profile) : Options :=
  ⟨s.hasConsole, s.consoleLevel, s.hasColors, s.hasFile, s.editorLevel, s.editorLines⟩

/-- Where lines of records go. -/
structure Outlet where
  threshold : Threshold
  layout : Layout
  lines : List String
deriving Repr

/-- Writes a record; one that cannot be written is left out. -/
def Outlet.note (o : Outlet) (r : Record) : Outlet :=
  if o.threshold.takes r.level then
    match o.layout.write r with
    | .ok line => { o with lines := o.lines ++ [line] }
    | .error _ => o
  else o

/-- The outlets of a program. -/
structure Outlets where
  console : Option Outlet
  file : Option Outlet
  editor : EditorLog

/-- Why a journal cannot be opened. -/
inductive SetupError where
  | threshold (e : ThresholdError)
  | capacity (e : CapacityError)
deriving DecidableEq, Repr

namespace Outlets

/-- Hands a record to all outlets. -/
def note (j : Outlets) (r : Record) : Outlets :=
  ⟨j.console.map (·.note r), j.file.map (·.note r), (j.editor.emit r).1⟩

/-- Hands several records to all outlets. -/
def noteAll (j : Outlets) (records : List Record) : Outlets := records.foldl note j

/-- Time, level and text: what the console shows. -/
def consoleFields : List Field :=
  [.time, .literal ' ', .literal ':', .literal ' ', .level 8, .literal ' ', .literal ':',
    .literal ' ', .text]

/-- The layout of the console. -/
def consoleLayout (hasColors : Bool) : Layout :=
  if hasColors then .colored consoleFields (some "%H:%M:%S")
  else .plain consoleFields (some "%H:%M:%S")

/-- The console that is asked for. -/
def consoleOutlet (o : Options) : Except SetupError (Option Outlet) :=
  if o.hasConsole then
    match Threshold.ofText o.consoleLevel with
    | .ok threshold => .ok (some ⟨threshold, consoleLayout o.hasColors, []⟩)
    | .error e => .error (.threshold e)
  else .ok none

/-- Makes the file of the journal, if its folder can be had and no folder stands in its place. -/
def makeFile (t : Tree) : Option Tree :=
  let path := Path.ofString journalFile
  let folder : Path := ⟨path.slashes, path.segments.dropLast⟩
  let t := t.ensureFolder folder
  if t.isFolder folder then
    match t.octets path with
    | .ok _ => some t
    | .error .notFound => some (t.put path (.file []))
    | .error _ => none
  else none

/-- The file outlet. -/
def fileOutlet : Outlet := ⟨.at .debug, .table (some "%Y-%m-%d %H:%M:%S"), []⟩

/-- The log of the editor that is asked for. -/
def editorLog (o : Options) : Except SetupError EditorLog :=
  match EditorLog.opened o.editorLines .all .editor with
  | .error e => .error (.capacity e)
  | .ok log =>
    match Threshold.ofText o.editorLevel with
    | .error e => .error (.threshold e)
    | .ok threshold => .ok { log with threshold }

/-- The name under which the journal notes its own records. -/
def ownSource : String := "sins-lsp.journal"

/-- A record of a source at a time. -/
def record (now : Number) (source : String) (level : Level) (text : String) : Record :=
  ⟨level, text, [], source, 0, now, .int 0, .int 0⟩

/-- A choice as it is shown in a record. -/
def shownChoice (b : Bool) : String := if b then "True" else "False"

/-- What a new journal notes about itself. -/
def greeting (t : Tree) (o : Options) (hasFile : Bool) : List (Level × String) :=
  [(.info, "Logging initialized")] ++
    (if o.hasConsole then
      [(.debug, "Console logging: " ++ o.consoleLevel ++ " (colors: " ++ shownChoice o.hasColors ++
        ")")]
    else []) ++
    (if hasFile then
      [(.debug, "File logging: DEBUG at " ++
        (t.absolute (Path.ofString journalFile)).toString)]
    else []) ++
    [(.debug, "Editor channel logging: " ++ o.editorLevel)]

/-- Opens a journal, and makes its file. -/
def opened (t : Tree) (now : Number) (o : Options) : Except SetupError (Outlets × Tree) := do
  let console ← consoleOutlet o
  let made := if o.hasFile then makeFile t else none
  let editor ← editorLog o
  let j : Outlets := ⟨console, made.map fun _ => fileOutlet, editor⟩
  let records := (greeting t o made.isSome).map fun n => record now ownSource n.1 n.2
  return (j.noteAll records, made.getD t)

end Outlets
end ModAtlas.Journal
