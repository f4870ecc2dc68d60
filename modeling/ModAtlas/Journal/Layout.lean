import ModAtlas.Journal.Clock
import ModAtlas.Journal.Record
import ModAtlas.Text.Piece

/-!
# Layouts

How a record is written as a line: by a template of fields, with the level in color or not, as a
row of a table, or in the short form of the editor's log.
-/

namespace ModAtlas.Journal
open ModAtlas.Text

/-- A field of a template. -/
inductive Field where
  | time
  | level (width : Nat)
  | text
  | source
  | line
  | literal (c : Char)
deriving DecidableEq, Repr

/-- How a record is written. -/
inductive Layout where
  | plain (fields : List Field) (dateFormat : Option String)
  | colored (fields : List Field) (dateFormat : Option String)
  | table (dateFormat : Option String)
  | editor
deriving DecidableEq, Repr, Inhabited

/-- The fields that a template may name, as they are written in it. -/
def fieldNames : List (String × Field) := [
  ("%(asctime)s", .time), ("%(levelname)s", .level 0), ("%(levelname)-8s", .level 8),
  ("%(message)s", .text), ("%(name)s", .source), ("%(lineno)d", .line)]

/-- The field at the start of a template, and how many characters its name has. -/
def fieldAt? (template : List Char) : Option (Field × Nat) :=
  (fieldNames.find? fun f => f.1.toList.isPrefixOf template).map fun f => (f.2, f.1.length)

/-- The fields of a template; `skip` characters belong to a field that was read. -/
def fieldsFrom : Nat → List Char → List Field
  | _, [] => []
  | skip + 1, _ :: rest => fieldsFrom skip rest
  | 0, '%' :: '%' :: rest => .literal '%' :: fieldsFrom 0 rest
  | 0, c :: rest =>
    match fieldAt? (c :: rest) with
    | some (field, length) => field :: fieldsFrom (length - 1) rest
    | none => .literal c :: fieldsFrom 0 rest

/-- Is it a field and not a character? -/
def Field.isNamed : Field → Bool
  | .literal _ => false
  | _ => true

/-- The fields of a template, which has one at least. An empty template shows the text. -/
def fieldsOf? (template : String) : Option (List Field) :=
  let fields := if template.isEmpty then [.text] else fieldsFrom 0 template.toList
  if fields.any Field.isNamed then some fields else none

/-- A text filled up with blanks to a width. -/
def padded (width : Nat) (s : String) : String :=
  s ++ String.ofList (List.replicate (width - s.length) ' ')

/-- When a record was made: in a format, or with date, time and milliseconds when there is none or
an empty one. -/
def timeText (r : Record) (dateFormat : Option String) : Except TextError String :=
  let moment := Moment.ofSeconds (floor r.created)
  match dateFormat.filter (· != "") with
  | some format => .ok (String.ofList (moment.write format.toList))
  | none =>
    (wholeNumber r.milliseconds).map fun ms =>
      String.ofList (moment.write "%Y-%m-%d %H:%M:%S".toList) ++ "," ++ threeDigits ms

/-- A field of a record. -/
def fieldText (r : Record) (dateFormat : Option String) : Field → Except TextError String
  | .time => timeText r dateFormat
  | .level width => .ok (padded width r.level.name)
  | .text => r.text
  | .source => .ok r.source
  | .line => .ok (toString r.line)
  | .literal c => .ok (String.ofList [c])

/-- A record by a template. -/
def templateLine (fields : List Field) (dateFormat : Option String) (r : Record) :
    Except TextError String :=
  match r.text with
  | .error e => .error e
  | .ok _ => (fields.mapM (fieldText r dateFormat)).map String.join

/-- The code that turns a terminal to the color of a level. -/
def colorOf : Level → String
  | .debug => "\x1b[36m"
  | .info => "\x1b[32m"
  | .warning => "\x1b[33m"
  | .error => "\x1b[31m"
  | .critical => "\x1b[35m"

/-- The code that turns a terminal back. -/
def colorReset : String := "\x1b[0m"

/-- A text with the first occurrence of a word replaced. -/
def replaceFirst (word replacement text : List Char) : List Char :=
  match (occurrences word 0 text).head? with
  | none => text
  | some (place, after) => text.take place ++ replacement ++ after

/-- A line with the name of the level in color where it first occurs. -/
def colorLine (level : Level) (line : String) : String :=
  let word := level.name
  String.ofList (replaceFirst word.toList (colorOf level ++ word ++ colorReset).toList line.toList)

/-- A record as a row of a table: quotes in its text are doubled. -/
def tableLine (dateFormat : Option String) (r : Record) : Except TextError String := do
  let time ← timeText r dateFormat
  let elapsed ← wholeNumber r.elapsed
  let text ← r.text
  let doubled := String.ofList (text.toList.flatMap fun c => if c = '"' then ['"', '"'] else [c])
  return "\"" ++ time ++ "\";" ++ padded 8 r.level.name ++ ";\"" ++ toString elapsed ++
    " ms\";\"" ++ r.source ++ "\";\"" ++ toString r.line ++ "\";\"" ++ doubled ++ "\""

/-- A record in the short form of the editor's log. -/
def editorLine (r : Record) : Except TextError String := do
  let time ← timeText r (some "%H:%M:%S")
  let text ← r.text
  return "[" ++ time ++ " " ++ r.level.name ++ "] " ++ text ++ " (" ++ r.source ++ ":" ++
    toString r.line ++ ")"

/-- A record as a line. -/
def Layout.write (layout : Layout) (r : Record) : Except TextError String :=
  match layout with
  | .plain fields dateFormat => templateLine fields dateFormat r
  | .colored fields dateFormat => (templateLine fields dateFormat r).map (colorLine r.level)
  | .table dateFormat => tableLine dateFormat r
  | .editor => editorLine r

end ModAtlas.Journal
