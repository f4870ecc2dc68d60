import ModAtlas.Settings.Conversion
import ModAtlas.Files.Path

/-!
# Settings of the workspace

Where the workspace and the schemas are, which language is spoken, how deep folders are searched,
how large a preview may be, and how long a request waits. A change that is refused leaves all
settings as they are.
-/

namespace ModAtlas.Settings
open ModAtlas.Json ModAtlas.Files

/-- The settings after a change, and what is said about it. -/
abbrev Change := Profile × List Notice

/-- Characters of a language code. -/
def isCodeChar (c : Char) : Bool :=
  ('A' ≤ c && c ≤ 'Z') || ('a' ≤ c && c ≤ 'z') || ('0' ≤ c && c ≤ '9') || c == '_' || c == '-'

/-- Is it a language code? One line feed may end it. -/
def isLanguageCode (text : String) : Bool :=
  let code := Text.dropLastNewline text.toList
  !code.isEmpty && code.all isCodeChar

/-- The value that a limit of 1 to 32 makes of a number. -/
def limited (n : Number) (v : Value) : Value :=
  if !n.lt (.int 32) then .num (.int 32)
  else if Number.lt (.int 1) n then v
  else .num (.int 1)

/-- A whole number brought between 1 and 32. -/
def withinDepths (n : Int) : Int := max 1 (min 32 n)

namespace Profile

/-- The key of the workspace folder. -/
def workspaceKey : String := "workspace/path"

/-- The key of the language. -/
def languageKey : String := "workspace/language"

/-- The key of the search depth. -/
def depthKey : String := "workspace/search_max_depth"

/-- The key of the largest preview. -/
def previewKey : String := "workspace/max_preview_kb"

/-- The key of the schema folder. -/
def schemasKey : String := "workspace/schemas_path"

/-- The key of the time a request waits. -/
def timeoutKey : String := "workspace/ready_timeout"

/-- The language when none is set. -/
def standardLanguage : String := "en"

/-- The seconds a request waits when nothing is set. -/
def standardTimeout : Binary64 := .ofInt 30

/-- The version of the layout of the settings. -/
def version (s : Profile) : String := s.text versionKey currentVersion

/-- The path under a key, none if it is empty. -/
def path? (s : Profile) (key : String) : Option Path :=
  let text := s.text key ""
  if text.isEmpty then none else some (.ofString text)

/-- The workspace folder. -/
def workspace? (s : Profile) : Option Path := s.path? workspaceKey

/-- The schema folder. -/
def schemas? (s : Profile) : Option Path := s.path? schemasKey

/-- The language. -/
def language (s : Profile) : String :=
  let text := s.text languageKey standardLanguage
  if text.isEmpty then standardLanguage else text

/-- How deep folders are searched, 1 to 32. -/
def searchDepth (s : Profile) : Except SettingError Int :=
  (s.integer depthKey 5).map withinDepths

/-- The largest image shown as a preview, in kilobytes. -/
def maxPreview (s : Profile) : Except SettingError Int :=
  (s.integer previewKey 100).map (max 1)

/-- The seconds a request waits. -/
def readyTimeout (s : Profile) : Except SettingError Binary64 :=
  (s.real timeoutKey standardTimeout).map fun x =>
    if Number.lt (.int 0) (.real x) then x else standardTimeout

/-! ## Changes -/

/-- Changes a path; no path is kept as an empty text. -/
def setPath (s : Profile) (key : String) : Value → Except SettingError Change
  | .null => .ok (s.put key (.str ""), [])
  | .str text => .ok (s.put key (.str (Path.ofString text).toString), [])
  | _ => .error .wrongKind

/-- Changes the language to a language code. -/
def setLanguage (s : Profile) : Value → Except SettingError Change
  | .str code =>
    if isLanguageCode code then .ok (s.put languageKey (.str code), [])
    else
      .ok (s, [⟨.warning, "Invalid language code: " ++ quoted code ++ ", keeping current: " ++
        s.language⟩])
  | _ => .error .wrongKind

/-- Changes the search depth, brought between 1 and 32. -/
def setSearchDepth (s : Profile) (v : Value) : Except SettingError Change :=
  match v.quantity? with
  | some n => .ok (s.put depthKey (limited n v), [])
  | none => .error .wrongKind

/-- Changes a number to a value above zero; of any other value something is said. -/
def setPositive (s : Profile) (key : String) (refuse : Except SettingError (List Notice))
    (v : Value) : Except SettingError Change :=
  match v.quantity? with
  | none => .error .wrongKind
  | some n =>
    if Number.lt (.int 0) n then .ok (s.put key v, [])
    else refuse.map fun notices => (s, notices)

/-- Changes the largest preview. -/
def setMaxPreview (s : Profile) (v : Value) : Except SettingError Change :=
  s.setPositive previewKey
    (s.maxPreview.map fun kept =>
      [⟨.warning, "Invalid preview size: " ++ v.plain ++ ", keeping current: " ++
        toString kept⟩]) v

/-- Changes the seconds a request waits; anything but more than zero is passed over. -/
def setReadyTimeout (s : Profile) (v : Value) : Except SettingError Change :=
  s.setPositive timeoutKey (.ok []) v

end Profile
end ModAtlas.Settings
