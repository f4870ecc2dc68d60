import ModAtlas.Json.Value
import ModAtlas.Json.Escape
import ModAtlas.Json.Numeral
import ModAtlas.Text.Utf8

/-!
# Strict JSON

Reads a whole text as one JSON value: no comments, no trailing commas, only the four JSON blanks,
at most 1024 containers inside one another. A key that is written twice keeps its first place and
takes its last value. Which number a numeral stands for is left to a parameter, `Numeral.number?`
for data files.
-/

namespace ModAtlas.Json.Strict

/-- What a reader gives: a result and the rest of the text, or nothing. -/
abbrev Reader (α : Type) := List Char → Option (α × List Char)

/-- The most containers that may lie inside one another. -/
def nestingLimit : Nat := 1024

/-- The four blanks of JSON. -/
def isBlank (c : Char) : Bool := c == ' ' || c == '\t' || c == '\r' || c == '\n'

/-- The text after the blanks at its start. -/
def skip (text : List Char) : List Char := text.dropWhile isBlank

/-- The text after an expected character, which blanks may precede. -/
def expect (c : Char) (text : List Char) : Option (List Char) :=
  match skip text with
  | d :: rest => if d = c then some rest else none
  | [] => none

/-- A string, its opening quote already read. -/
def body : Reader String := fun text =>
  match closing? text with
  | none => none
  | some (raw, rest) => (decode raw).map (·, rest)

/-- Items up to the closing bracket, read with a reader for one value. -/
def items (value : Reader Value) : Nat → Reader (List Value)
  | 0, _ => none
  | fuel + 1, text => do
    let (v, text) ← value text
    match skip text with
    | ',' :: rest =>
      let (vs, rest) ← items value fuel rest
      some (v :: vs, rest)
    | ']' :: rest => some ([v], rest)
    | _ => none

/-- Members up to the closing brace, read with a reader for one value. -/
def members (value : Reader Value) : Nat → Reader (List (String × Value))
  | 0, _ => none
  | fuel + 1, text => do
    let text ← expect '"' text
    let (key, text) ← body text
    let text ← expect ':' text
    let (v, text) ← value text
    match skip text with
    | ',' :: rest =>
      let (vs, rest) ← members value fuel rest
      some ((key, v) :: vs, rest)
    | '}' :: rest => some ([(key, v)], rest)
    | _ => none

/-- A word of letters, a string or a numeral. -/
def scalar (number? : Numeral → Option Number) : Reader Value := fun text =>
  match text with
  | '"' :: rest => (body rest).map fun p => (.str p.1, p.2)
  | 't' :: 'r' :: 'u' :: 'e' :: rest => some (.bool true, rest)
  | 'f' :: 'a' :: 'l' :: 's' :: 'e' :: rest => some (.bool false, rest)
  | 'n' :: 'u' :: 'l' :: 'l' :: rest => some (.null, rest)
  | _ =>
    match Numeral.scan? Text.isAsciiDigit text with
    | none => none
    | some (numeral, rest) => (number? numeral).map fun n => (.num n, rest)

/-- One value; `budget` is how many more containers may be opened. -/
def value (number? : Numeral → Option Number) : Nat → Reader Value
  | budget, text =>
    match skip text with
    | '[' :: rest =>
      match budget with
      | 0 => none
      | budget + 1 =>
        match skip rest with
        | ']' :: rest => some (.arr [], rest)
        | rest =>
          (items (value number? budget) rest.length rest).map fun p => (.arr p.1, p.2)
    | '{' :: rest =>
      match budget with
      | 0 => none
      | budget + 1 =>
        match skip rest with
        | '}' :: rest => some (.obj [], rest)
        | rest =>
          (members (value number? budget) rest.length rest).map fun p =>
            (.obj (Members.ofList p.1), p.2)
    | text => scalar number? text

/-- The value that a whole text holds, the numbers of numerals being given. -/
def readWith (number? : Numeral → Option Number) (text : List Char) : Option Value := do
  let (v, rest) ← value number? nestingLimit text
  if (skip rest).isEmpty then some v else none

/-- The value that a data text holds. -/
def read (text : List Char) : Option Value := readWith Numeral.number? text

/-- The value of a data file: UTF-8, after one byte order mark if there is one. -/
def readOctets (octets : List UInt8) : Option Value :=
  (Text.Utf8.decode? (Text.Utf8.dropMark octets)).bind read

end ModAtlas.Json.Strict
