import ModAtlas.Settings.Logging
import ModAtlas.Files.Tree

/-!
# Properties

All settings by name, for reading and changing, and the check of a whole profile. Two of them
cannot be changed.
-/

namespace ModAtlas.Settings
open ModAtlas.Json ModAtlas.Files

/-- A setting. -/
inductive Property where
  | version
  | workspacePath
  | language
  | searchMaxDepth
  | maxPreviewKb
  | schemasPath
  | readyTimeout
  | consoleLogging
  | consoleLogLevel
  | consoleUseColors
  | fileLogging
  | logFilePath
  | editorLogLevel
  | editorMaxLines
deriving DecidableEq, Repr

namespace Property

/-- All settings. -/
def all : List Property := [
  .version, .workspacePath, .language, .searchMaxDepth, .maxPreviewKb, .schemasPath,
  .readyTimeout, .consoleLogging, .consoleLogLevel, .consoleUseColors, .fileLogging, .logFilePath,
  .editorLogLevel, .editorMaxLines]

/-- The name of a setting. -/
def name : Property → String
  | .version => "version"
  | .workspacePath => "workspace_path"
  | .language => "language"
  | .searchMaxDepth => "search_max_depth"
  | .maxPreviewKb => "max_preview_kb"
  | .schemasPath => "schemas_path"
  | .readyTimeout => "ready_timeout"
  | .consoleLogging => "console_logging"
  | .consoleLogLevel => "console_log_level"
  | .consoleUseColors => "console_use_colors"
  | .fileLogging => "file_logging"
  | .logFilePath => "log_file_path"
  | .editorLogLevel => "editor_log_level"
  | .editorMaxLines => "editor_max_lines"

/-- The setting with a name. -/
def ofName? (name : String) : Option Property := all.find? (·.name == name)

end Property

/-- The value of a setting: of paths it stays visible that they are paths. -/
inductive Content where
  | value (v : Value)
  | path (p : Path)
deriving Repr

/-- A path, or nothing. -/
def Content.ofPath : Option Path → Content
  | some p => .path p
  | none => .value .null

namespace Profile

/-- The value of a setting. -/
def get (s : Profile) : Property → Except SettingError Content
  | .version => .ok (.value (.str s.version))
  | .workspacePath => .ok (.ofPath s.workspace?)
  | .language => .ok (.value (.str s.language))
  | .searchMaxDepth => s.searchDepth.map fun n => .value (.num (.int n))
  | .maxPreviewKb => s.maxPreview.map fun n => .value (.num (.int n))
  | .schemasPath => .ok (.ofPath s.schemas?)
  | .readyTimeout => s.readyTimeout.map fun x => .value (.num (.real x))
  | .consoleLogging => .ok (.value (.bool s.hasConsole))
  | .consoleLogLevel => .ok (.value (.str s.consoleLevel))
  | .consoleUseColors => .ok (.value (.bool s.hasColors))
  | .fileLogging => .ok (.value (.bool s.hasFile))
  | .logFilePath => .ok (.value (.str journalFile))
  | .editorLogLevel => .ok (.value (.str s.editorLevel))
  | .editorMaxLines => .ok (.value (.num (.int s.editorLines)))

/-- Changes a setting. -/
def set (s : Profile) (p : Property) (v : Value) : Except SettingError Change :=
  match p with
  | .version => .error .readOnly
  | .logFilePath => .error .readOnly
  | .workspacePath => s.setPath workspaceKey v
  | .schemasPath => s.setPath schemasKey v
  | .language => s.setLanguage v
  | .searchMaxDepth => s.setSearchDepth v
  | .maxPreviewKb => s.setMaxPreview v
  | .readyTimeout => s.setReadyTimeout v
  | .consoleLogging => .ok (s.put consoleKey v, [])
  | .consoleUseColors => .ok (s.put colorsKey v, [])
  | .fileLogging => .ok (s.put fileKey v, [])
  | .consoleLogLevel => s.setLevel consoleLevelKey s.consoleLevel v
  | .editorLogLevel => s.setLevel editorLevelKey s.editorLevel v
  | .editorMaxLines => s.setEditorLines v

end Profile

/-! ## Check -/

/-- What a check finds: errors make a profile unusable, warnings do not. -/
structure Report where
  errors : List String
  warnings : List String
deriving DecidableEq, Repr

/-- Does the profile have no errors? -/
def Report.isValid (r : Report) : Bool := r.errors.isEmpty

namespace Profile

/-- What is wrong with the workspace folder. -/
def checkWorkspace (s : Profile) (t : Tree) : Report :=
  match s.workspace? with
  | none => ⟨[], ["Workspace path not set"]⟩
  | some path =>
    if !t.exists? path then ⟨["Workspace path does not exist: " ++ path.toString], []⟩
    else if !t.isFolder path then
      ⟨["Workspace path is not a directory: " ++ path.toString], []⟩
    else ⟨[], []⟩

/-- What is wrong with the language. -/
def checkLanguage (s : Profile) : List String :=
  if isLanguageCode s.language then []
  else ["Suspicious language code: " ++ quoted s.language]

/-- What is wrong with the schema folder. -/
def checkSchemas (s : Profile) (t : Tree) : List String :=
  match s.schemas? with
  | none => []
  | some path =>
    if t.isFolder path then []
    else ["Schemas directory not found, bundled schemas will be used: " ++ path.toString]

/-- Checks a profile. -/
def check (s : Profile) (t : Tree) : Report :=
  let r := s.checkWorkspace t
  ⟨r.errors, r.warnings ++ s.checkLanguage ++ s.checkSchemas t⟩

end Profile
end ModAtlas.Settings
