import ModAtlas.Text.Blank
import ModAtlas.Text.Digit
import ModAtlas.Number.Number

/-!
# Reading numerals leniently

How a number is read from free text, such as a stored setting: white space around it, a sign,
decimal digits of any digit set and single underscores between digits are allowed.
-/

namespace ModAtlas.Number
open ModAtlas.Text

/-- The most digits that an integer may be read from. -/
def digitLimit : Nat := 4300

/-- The value of a row of digits. -/
def digitsValue (digits : List Nat) : Nat := digits.foldl (fun n d => n * 10 + d) 0

/-- White space that may stand around a numeral: any but the information separators of ASCII. -/
def isMargin (c : Char) : Bool := isAsciiBlank c || (0x80 ≤ c.toNat && isBlank c)

/-- A text freed from the white space around it. -/
def trimmed (s : List Char) : List Char := strip isMargin s

/-- A sign and what follows it: true for a minus. -/
def signed : List Char → Bool × List Char
  | '-' :: rest => (true, rest)
  | '+' :: rest => (false, rest)
  | rest => (false, rest)

/-- The digits at the start, with single underscores between them, and what follows. -/
def digitRun : List Char → List Nat × List Char
  | [] => ([], [])
  | '_' :: c :: rest =>
    match digitValue? c with
    | none => ([], '_' :: c :: rest)
    | some d =>
      let (more, after) := digitRun rest
      (d :: more, after)
  | c :: rest =>
    match digitValue? c with
    | none => ([], c :: rest)
    | some d =>
      let (more, after) := digitRun rest
      (d :: more, after)

/-- The digits at the start; they do not begin with an underscore. -/
def digits (s : List Char) : List Nat × List Char :=
  if s.head? = some '_' then ([], s) else digitRun s

/-- An integer, of at most `digitLimit` digits. -/
def readInt? (text : List Char) : Option Int :=
  let (negative, rest) := signed (trimmed text)
  match digits rest with
  | ([], _) => none
  | (ds, []) =>
    if digitLimit < ds.length then none
    else some (if negative then -(digitsValue ds : Int) else digitsValue ds)
  | _ => none

/-- The named values of a floating point text. -/
def named? (negative : Bool) (text : List Char) : Option Binary64 :=
  match String.ofList (text.map Char.toLower) with
  | "inf" => some (.infinite negative)
  | "infinity" => some (.infinite negative)
  | "nan" => some .nan
  | _ => none

/-- The exponent at the end of a floating point text; an empty text has none. -/
def readPower? : List Char → Option Int
  | [] => some 0
  | e :: rest =>
    if e = 'e' ∨ e = 'E' then
      let (negative, rest) := signed rest
      match digits rest with
      | ([], _) => none
      | (ds, []) => some (if negative then -(digitsValue ds : Int) else digitsValue ds)
      | _ => none
    else none

/-- A floating point number: digits with a point, an exponent, or one of the named values. A
number too great becomes infinite. -/
def readReal? (text : List Char) : Option Binary64 :=
  let (negative, rest) := signed (trimmed text)
  match named? negative rest with
  | some x => some x
  | none =>
    let (whole, rest) := digits rest
    let (fraction, rest) := match rest with
      | '.' :: after => digits after
      | _ => ([], rest)
    if whole.isEmpty && fraction.isEmpty then none
    else (readPower? rest).map fun power =>
      Binary64.ofScientific negative (digitsValue (whole ++ fraction)) (power - fraction.length)

end ModAtlas.Number
