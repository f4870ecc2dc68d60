import ModAtlas.Text.Digit
import ModAtlas.Text.Piece

/-!
# Arguments

How a command line is read. Options start with two hyphens, may be cut short as long as only one
is meant, and take their value from the next argument or after an equals sign. A lone `--` ends
the options. The workspace and the documents come from the first run of other arguments; later
ones have no place.

## Implementation notes

Every argument is first told to be an option, a separator or a word; then the options are taken
one after the other, so that what stops the reading is the first that would be met.
-/

namespace ModAtlas.CommandLine
open ModAtlas.Text

/-- An option. -/
inductive Flag where
  | help
  | language
  | schemas
  | profile
  | version
deriving DecidableEq, Repr

namespace Flag

/-- All ways to write the options. -/
def spellings : List (String × Flag) := [
  ("-h", .help), ("--help", .help), ("--language", .language), ("--schemas", .schemas),
  ("--profile", .profile), ("--version", .version)]

/-- Does the option have a value? -/
def hasValue : Flag → Bool
  | .help => false
  | .version => false
  | _ => true

end Flag

/-- What an argument is. An unknown option has no flag; an option may hold its value. -/
inductive Mark where
  | word
  | separator
  | flag (flag : Option Flag) (value : Option String)
deriving DecidableEq, Repr

/-- What a command line asks for. -/
structure Arguments where
  workspace : Option String
  files : List String
  language : Option String
  schemas : Option String
  profile : String
deriving DecidableEq, Repr

/-- Why a command line is not run. -/
inductive Stop where
  | help
  | version
  | misuse
deriving DecidableEq, Repr

/-- Is it a negative number? One line feed may end it. -/
def isNegativeNumber (text : List Char) : Bool :=
  match dropLastNewline text with
  | '-' :: rest =>
    let fraction := (rest.dropWhile isDecimalDigit).drop 1
    (!rest.isEmpty && rest.all isDecimalDigit) ||
      ((rest.dropWhile isDecimalDigit).head? == some '.' && !fraction.isEmpty &&
        fraction.all isDecimalDigit)
  | _ => false

/-- The options that an argument may mean: with two hyphens those that start with it, with one
hyphen those of one letter. -/
def meant (argument : List Char) : List (Flag × Option String) :=
  match argument with
  | '-' :: '-' :: _ =>
    let (start, value) := match cut? '=' argument with
      | some (start, value) => (start, some (String.ofList value))
      | none => (argument, none)
    (Flag.spellings.filter fun s => start.isPrefixOf s.1.toList).map fun s => (s.2, value)
  | '-' :: c :: rest =>
    (Flag.spellings.filter fun s => s.1.toList == ['-', c]).map fun s =>
      (s.2, if rest.isEmpty then none else some (String.ofList rest))
  | _ => []

/-- The option that an argument spells out, with the value after an equals sign. -/
def spelled? (argument : String) : Option (Flag × Option String) :=
  match Flag.spellings.lookup argument with
  | some flag => some (flag, none)
  | none =>
    match cut? '=' argument.toList with
    | none => none
    | some (start, value) =>
      (Flag.spellings.lookup (String.ofList start)).map (·, some (String.ofList value))

/-- Is it the letter of the help option several times behind one hyphen? -/
def repeatsHelp : List Char → Bool
  | '-' :: 'h' :: '=' :: rest => !rest.isEmpty && rest.all (· == 'h')
  | '-' :: 'h' :: rest => rest.all (· == 'h')
  | _ => false

/-- What an argument before the separator is. -/
def markOf (argument : String) : Except Stop Mark :=
  let text := argument.toList
  if text.head? != some '-' || text.length = 1 then .ok .word
  else if repeatsHelp text then .ok (.flag (some .help) none)
  else
    match spelled? argument with
    | some (flag, value) => .ok (.flag (some flag) value)
    | none =>
      match meant text with
      | [(flag, value)] => .ok (.flag (some flag) value)
      | _ :: _ :: _ => .error .misuse
      | [] =>
        if isNegativeNumber text || text.contains ' ' then .ok .word else .ok (.flag none none)

/-- All arguments with what they are: behind the separator everything is a word. -/
def marked : List String → Except Stop (List (Mark × String))
  | [] => .ok []
  | "--" :: rest => .ok ((.separator, "--") :: rest.map (.word, ·))
  | argument :: rest => do
    let mark ← markOf argument
    let more ← marked rest
    return (mark, argument) :: more

/-- Is it no option? -/
def isPlain (a : Mark × String) : Bool :=
  match a.1 with
  | .flag .. => false
  | _ => true

/-- Arguments of a group without the first separator among them. -/
def valuesOf (group : List (Mark × String)) : List String := (group.map (·.2)).erase "--"

/-- The arguments that the workspace takes: one word, with the separator before or behind it. -/
def workspaceGroup (run : List (Mark × String)) :
    List (Mark × String) × List (Mark × String) :=
  let lead := run.takeWhile (·.1 == .separator)
  match run.drop lead.length with
  | [] => (lead, [])
  | w :: rest =>
    let tail := rest.takeWhile (·.1 == .separator)
    (lead ++ w :: tail, rest.drop tail.length)

/-- The state of reading: what was found, whether workspace and files were taken, and whether
something had no place. -/
structure Reading where
  found : Arguments
  isPlaced : Bool
  hasExtra : Bool

/-- Nothing read. -/
def Reading.start : Reading := ⟨⟨none, [], none, none, "default"⟩, false, false⟩

/-- Takes a run of words. -/
def Reading.takeRun (r : Reading) (run : List (Mark × String)) : Reading :=
  if r.isPlaced then { r with hasExtra := true }
  else
    let (first, others) := workspaceGroup run
    { r with
      found := { r.found with workspace := (valuesOf first).head?, files := valuesOf others }
      isPlaced := true }

/-- Takes the value of an option. -/
def Reading.setValue (r : Reading) (flag : Flag) (value : String) : Reading :=
  let found := match flag with
    | .language => { r.found with language := some value }
    | .schemas => { r.found with schemas := some value }
    | .profile => { r.found with profile := value }
    | _ => r.found
  { r with found }

/-- Reads marked arguments; every turn takes one at least. -/
def readMarked : Nat → Reading → List (Mark × String) → Except Stop Reading
  | 0, r, _ => .ok r
  | _, r, [] => .ok r
  | fuel + 1, r, (.flag none _, _) :: rest => readMarked fuel { r with hasExtra := true } rest
  | fuel + 1, r, (.flag (some flag) value, _) :: rest =>
    if flag.hasValue then
      match value, rest with
      | some v, _ => readMarked fuel (r.setValue flag v) rest
      | none, (.word, v) :: rest => readMarked fuel (r.setValue flag v) rest
      | none, _ => .error .misuse
    else if value.isSome then .error .misuse
    else if flag = .help then .error .help
    else .error .version
  | fuel + 1, r, a :: rest =>
    let run := a :: rest.takeWhile isPlain
    readMarked fuel (r.takeRun run) (rest.dropWhile isPlain)

/-- Reads a command line. -/
def Arguments.read (arguments : List String) : Except Stop Arguments :=
  match marked arguments with
  | .error e => .error e
  | .ok marks =>
    match readMarked (marks.length + 1) .start marks with
    | .error e => .error e
    | .ok r => if r.hasExtra then .error .misuse else .ok r.found

end ModAtlas.CommandLine
