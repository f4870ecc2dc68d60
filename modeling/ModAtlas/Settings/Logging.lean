import ModAtlas.Settings.Workspace

/-!
# Settings of the journal

Which outlets the journal has, from which level on they take records, and how many records the
editor's log keeps.
-/

namespace ModAtlas.Settings
open ModAtlas.Json ModAtlas.Journal

/-- The file of the journal. -/
def journalFile : String := "logs/sins_lsp.csv"

namespace Profile

/-- The key of the choice whether there is a console. -/
def consoleKey : String := "logging/console_enabled"

/-- The key of the level of the console. -/
def consoleLevelKey : String := "logging/console_level"

/-- The key of the choice whether the console is colored. -/
def colorsKey : String := "logging/console_use_colors"

/-- The key of the choice whether there is a file. -/
def fileKey : String := "logging/file_enabled"

/-- The key of the level of the editor's log. -/
def editorLevelKey : String := "logging/editor_level"

/-- The key of the number of records the editor's log keeps. -/
def editorLinesKey : String := "logging/editor_max_lines"

/-- The level when none is set. -/
def standardLevel : String := "INFO"

/-- Is there a console? -/
def hasConsole (s : Profile) : Bool := s.choice consoleKey true

/-- The level of the console. -/
def consoleLevel (s : Profile) : String := s.text consoleLevelKey standardLevel

/-- Is the console colored? -/
def hasColors (s : Profile) : Bool := s.choice colorsKey false

/-- Is there a file? -/
def hasFile (s : Profile) : Bool := s.choice fileKey false

/-- The level of the editor's log. -/
def editorLevel (s : Profile) : String := s.text editorLevelKey standardLevel

/-- How many records the editor's log keeps. The value is read as a text, so that only integers
count. -/
def editorLines (s : Profile) : Int :=
  match s.value? editorLinesKey with
  | none => 1000
  | some .null => 1000
  | some v => (Number.readInt? v.plain.toList).getD 1000

/-! ## Changes -/

/-- Changes a level to one of the five, written in any case. -/
def setLevel (s : Profile) (key current : String) : Value → Except SettingError Change
  | .str name =>
    match Level.ofName? (Text.upper name) with
    | some level => .ok (s.put key (.str level.name), [])
    | none =>
      .ok (s, [⟨.warning, "Invalid log level for " ++ key ++ ": " ++ name ++
        ", keeping current: " ++ current⟩])
  | _ => .error .notText

/-- Changes how many records the editor's log keeps. -/
def setEditorLines (s : Profile) (v : Value) : Except SettingError Change :=
  s.setPositive editorLinesKey
    (.ok [⟨.warning, "Invalid editor max lines: " ++ v.plain ++ ", keeping current: " ++
      toString s.editorLines⟩]) v

end Profile
end ModAtlas.Settings
