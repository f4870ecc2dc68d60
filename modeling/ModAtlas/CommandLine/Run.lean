import ModAtlas.CommandLine.Arguments
import ModAtlas.CommandLine.Usage
import ModAtlas.Journal.Basic
import ModAtlas.Service.Workshop
import ModAtlas.Settings.Property

/-!
# Runs of the program

A run checks the settings and the workspace, surveys the workspace, and then either prints how
much it found or validates documents. It ends with 0, with 1 when a document has an error or
cannot be read, and with 2 when it cannot start.
-/

namespace ModAtlas.CommandLine
open ModAtlas.Files ModAtlas.Journal ModAtlas.Service ModAtlas.Settings ModAtlas.Text

/-- What a run leaves behind. A run that was not started has no journal. -/
structure Outcome where
  exit : Nat
  printed : List String
  journal : Option Outlets
  store : Store

/-- Why a run breaks off without an end of its own. -/
inductive Crash where
  | setting (e : SettingError)
  | journal (e : SetupError)
deriving DecidableEq, Repr

/-- What a run works with. -/
structure Environment where
  tree : Tree
  bundled : Path
  now : Number
  store : Store

/-- The name and version of the program. -/
def versionText : String := "sins-lsp 0.1.0"

/-- The name under which a run notes its records. -/
def runSource : String := "sins-lsp.run"

/-- The name under which the survey of a workspace is noted. -/
def surveySource : String := "sins-lsp.survey"

/-- Everything is in order. -/
def exitFine : Nat := 0

/-- A document has an error. -/
def exitDiagnostics : Nat := 1

/-- The run could not be started. -/
def exitSetup : Nat := 2

/-! ## Documents -/

/-- The number and the wording of a file error. -/
def describe : FileError → String
  | .notFound => "[Errno 2] No such file or directory"
  | .refused => "[Errno 13] Permission denied"
  | .notFolder => "[Errno 20] Not a directory"
  | .isFolder => "[Errno 21] Is a directory"
  | .tooManyLinks (l := .links) => "[Errno 40] Too many levels of symbolic links"
  | .tooManyLinks (l := .length) => "[Errno 36] File name too long"
  | .nulInPath => "embedded null byte"

/-- One diagnostic as a line. -/
def diagnosticLine (file : String) (d : Reference.Diagnostic) : String :=
  file ++ ":" ++ toString (d.range.start.line + 1) ++ ":" ++
    toString (d.range.start.character + 1) ++ ": error: " ++ d.message

/-- What comes of one document: lines and whether something is wrong. A document whose octets are
no text, or whose name no file can have, ends the run. -/
inductive Verdict where
  | checked (lines : List String) (isWrong : Bool)
  | unreadable
deriving DecidableEq, Repr

/-- Validates the document of a path. -/
def validate (w : Workshop) (file : String) (text : List Char) : Workshop × Verdict :=
  let uri := Uri.ofPath (w.tree.absolute (.ofString file))
  let ticket := w.nextTicket
  let w := (w.act (.ask ⟨uri, String.ofList text, .validation 0⟩)).settle
  let found := match w.answer? ticket with
    | some (.diagnostics (some found)) => found
    | _ => []
  (w, .checked (found.map (diagnosticLine file)) !found.isEmpty)

/-- Reads and validates one document. -/
def checkFile (w : Workshop) (file : String) : Workshop × Verdict :=
  match readText w.tree (.ofString file) with
  | .error .nulInPath => (w, .unreadable)
  | .error e =>
    let shown := Json.quoted (Path.ofString file).toString
    (w, .checked [file ++ ": error: " ++ describe e ++ ": " ++ shown] true)
  | .ok none => (w, .unreadable)
  | .ok (some text) => validate w file text

/-- What comes of several documents: lines, whether something is wrong, and whether the run was
ended by one of them. -/
structure Checked where
  lines : List String
  isWrong : Bool
  isBroken : Bool
deriving DecidableEq, Repr

/-- Checks documents one after the other. -/
def checkFiles (w : Workshop) : List String → Checked
  | [] => ⟨[], false, false⟩
  | file :: rest =>
    let (w, verdict) := checkFile w file
    match verdict with
    | .unreadable => ⟨[], true, true⟩
    | .checked lines isWrong =>
      let more := checkFiles w rest
      ⟨lines ++ more.lines, isWrong || more.isWrong, more.isBroken⟩

/-! ## The run -/

/-- A run under way: its settings and its journal. -/
structure Run where
  arguments : Arguments
  settings : Profile
  tree : Tree
  now : Number
  journal : Outlets

namespace Run

/-- Notes a record. -/
def note (r : Run) (source : String) (level : Level) (text : String) : Run :=
  { r with journal := r.journal.note (Outlets.record r.now source level text) }

/-- Ends the run. -/
def ending (r : Run) (exit : Nat) (printed : List String) : Outcome :=
  ⟨exit, printed, some r.journal, r.settings.store⟩

/-- Ends a run that cannot go on. -/
def refuse (r : Run) (text : String) : Outcome :=
  (r.note runSource .error text).ending exitSetup []

/-- The folder to survey: the one given, or else the one of the settings. -/
def workspace? (r : Run) : Option Path :=
  match r.arguments.workspace with
  | some text => if text.isEmpty then r.settings.workspace? else some (.ofString text)
  | none => r.settings.workspace?

/-- A text unless it is empty. -/
def given? (text : Option String) : Option String := text.filter (· != "")

/-- The setup of the service. -/
def setup (r : Run) : Except Crash Setup := do
  let depth ← r.settings.searchDepth.mapError .setting
  let preview ← r.settings.maxPreview.mapError .setting
  let _ ← r.settings.readyTimeout.mapError .setting
  let folder := match given? r.arguments.schemas with
    | some text => some (Path.ofString text)
    | none => r.settings.schemas?
  return ⟨depth, preview, r.settings.language, folder.map Path.toString⟩

/-- The lines that tell how much is known. -/
def countLines (w : Workshop) : List String :=
  w.service.atlas.counts.map fun c => c.1 ++ ": " ++ toString c.2

/-- What is noted about a survey. -/
def surveyNotes (root : String) (w : Workshop) : List String :=
  let atlas := w.service.atlas
  ["Rebuilding workspace '" ++ root ++ "' (language: " ++ w.service.language ++ ")",
    "Cached " ++ toString atlas.members.sizeTotal ++ " elements in '" ++ root ++ "'",
    "Workspace loaded: " ++ toString atlas.index.size ++ " unique IDs, " ++
      toString atlas.members.sizeTotal ++ " cached elements, " ++
      toString atlas.localization.files.length ++ " languages"]

/-- Surveys the workspace; then prints how much is known, or checks the documents. -/
def serve (r : Run) (bundled root : Path) (setup : Setup) : Outcome :=
  let language := (given? r.arguments.language).getD r.settings.language
  let opened := Workshop.opened r.tree bundled setup
  let w := (opened.act (.rebuild root.toString (some language))).settle
  let r := (surveyNotes root.toString w).foldl (fun r text => r.note surveySource .info text) r
  if r.arguments.files.isEmpty then r.ending exitFine (countLines w)
  else
    let checked := checkFiles w r.arguments.files
    if checked.isBroken then
      (r.note runSource .error "Unhandled exception in main").ending exitDiagnostics checked.lines
    else r.ending (if checked.isWrong then exitDiagnostics else exitFine) checked.lines

/-- Goes on with a workspace that is a folder: the settings are checked, then the schema folder. -/
def withWorkspace (r : Run) (bundled root : Path) : Except Crash Outcome :=
  let report := r.settings.check r.tree
  let r := report.warnings.foldl (fun r text => r.note runSource .warning ("  " ++ text)) r
  if r.arguments.workspace.isNone && !report.isValid then
    let r := r.note runSource .error "Configuration validation failed:"
    let r := report.errors.foldl (fun r text => r.note runSource .error ("  " ++ text)) r
    .ok (r.ending exitSetup [])
  else
    match (given? r.arguments.schemas).map Path.ofString with
    | some folder =>
      if r.tree.isFolder folder then r.setup.map (r.serve bundled root)
      else .ok (r.refuse ("Schemas path is not a directory: " ++ folder.toString))
    | none => r.setup.map (r.serve bundled root)

/-- Finds the workspace and goes on. -/
def start (r : Run) (bundled : Path) : Except Crash Outcome :=
  let r := r.note runSource .debug ("Configuration loaded from " ++ storeFile)
  match r.workspace? with
  | none => .ok (r.refuse "No workspace given and none configured")
  | some root =>
    if r.tree.isFolder root then r.withWorkspace bundled root
    else .ok (r.refuse ("Workspace is not a directory: " ++ root.toString))

end Run

/-- A run whose settings cannot be used. -/
def withoutSettings (e : Environment) (problem : StoreError) : Except Crash Outcome := do
  let (journal, _) ← (Outlets.opened e.tree e.now .standard).mapError .journal
  let text := "Cannot load settings: " ++ problem.message
  return ⟨exitSetup, [], some (journal.note (Outlets.record e.now runSource .error text)), e.store⟩

/-- Runs a command line. -/
def run (e : Environment) (arguments : List String) : Except Crash Outcome :=
  match Arguments.read arguments with
  | .error .help => .ok ⟨exitFine, helpLines, none, e.store⟩
  | .error .version => .ok ⟨exitFine, [versionText], none, e.store⟩
  | .error .misuse => .ok ⟨exitSetup, [], none, e.store⟩
  | .ok arguments =>
    match (opened e.store arguments.profile).1 with
    | .error problem => withoutSettings e problem
    | .ok settings => do
      let (journal, tree) ←
        (Outlets.opened e.tree e.now (.ofSettings settings)).mapError .journal
      Run.start ⟨arguments, settings, tree, e.now, journal⟩ e.bundled

end ModAtlas.CommandLine
