import ModAtlas.Number.Reading

/-!
# JSON numerals

A numeral token split into its parts, and the number it stands for. An integer that fits into 64
bits is itself; beyond, it becomes the nearest floating point number.
-/

namespace ModAtlas.Json
open ModAtlas.Text

/-- The exponent part of a numeral: its letter, its sign if written, its digits. -/
structure Exponent where
  letter : Char
  sign : Option Char
  digits : List Char
deriving DecidableEq, Repr

/-- The parts of a numeral. An empty fraction means that none is written. -/
structure Numeral where
  negative : Bool
  whole : List Char
  fraction : List Char
  exponent : Option Exponent
deriving DecidableEq, Repr

namespace Numeral

/-- The characters of an exponent. -/
def exponentSpelling (e : Exponent) : List Char := e.letter :: (e.sign.toList ++ e.digits)

/-- The characters of a numeral. -/
def spelling (n : Numeral) : List Char :=
  (if n.negative then ['-'] else []) ++ n.whole ++
    (if n.fraction.isEmpty then [] else '.' :: n.fraction) ++
    (match n.exponent with
      | none => []
      | some e => exponentSpelling e)

/-- The whole part at the start of a text: `0`, or digits that begin with `1` to `9`. The class
decides which further digits count. -/
def scanWhole (digit : Char → Bool) : List Char → Option (List Char × List Char)
  | [] => none
  | c :: rest =>
    if c = '0' then some (['0'], rest)
    else if '1' ≤ c ∧ c ≤ '9' then some (c :: rest.takeWhile digit, rest.dropWhile digit)
    else none

/-- A fraction at the start of a text; a point without a digit after it is not one. -/
def scanFraction (digit : Char → Bool) : List Char → List Char × List Char
  | '.' :: rest =>
    match rest.takeWhile digit with
    | [] => ([], '.' :: rest)
    | ds => (ds, rest.dropWhile digit)
  | text => ([], text)

/-- A sign that may stand before the digits of an exponent. -/
def scanSign : List Char → Option Char × List Char
  | c :: rest => if c = '+' ∨ c = '-' then (some c, rest) else (none, c :: rest)
  | [] => (none, [])

/-- An exponent at the start of a text; a letter without a digit after it is not one. -/
def scanExponent (digit : Char → Bool) : List Char → Option Exponent × List Char
  | [] => (none, [])
  | c :: rest =>
    if c = 'e' ∨ c = 'E' then
      let (sign, after) := scanSign rest
      match after.takeWhile digit with
      | [] => (none, c :: rest)
      | ds => (some ⟨c, sign, ds⟩, after.dropWhile digit)
    else (none, c :: rest)

/-- A minus sign that may stand before a numeral. -/
def scanMinus : List Char → Bool × List Char
  | c :: rest => if c = '-' then (true, rest) else (false, c :: rest)
  | [] => (false, [])

/-- The longest numeral at the start of a text, and what follows it. -/
def scan? (digit : Char → Bool) (text : List Char) : Option (Numeral × List Char) :=
  let (negative, rest) := scanMinus text
  match scanWhole digit rest with
  | none => none
  | some (whole, rest) =>
    let (fraction, rest) := scanFraction digit rest
    let (exponent, rest) := scanExponent digit rest
    some (⟨negative, whole, fraction, exponent⟩, rest)

/-- The values of digits of any digit set. -/
def values (digits : List Char) : List Nat := digits.map fun c => (digitValue? c).getD 0

/-- Is it written without fraction and exponent? -/
def isInteger (n : Numeral) : Bool := n.fraction.isEmpty && n.exponent.isNone

/-- Are all its digits ASCII? -/
def isAscii (n : Numeral) : Bool := n.spelling.all (·.toNat < 0x80)

/-- The integer that the whole part denotes, with the sign. -/
def integer (n : Numeral) : Int :=
  let v : Int := Number.digitsValue (values n.whole)
  if n.negative then -v else v

/-- The power of ten that the exponent denotes. -/
def power (n : Numeral) : Int :=
  match n.exponent with
  | none => 0
  | some e =>
    let v : Int := Number.digitsValue (values e.digits)
    if e.sign = some '-' then -v else v

/-- The floating point number nearest to the numeral. -/
def real (n : Numeral) : Binary64 :=
  Binary64.ofScientific n.negative (Number.digitsValue (values (n.whole ++ n.fraction)))
    (n.power - n.fraction.length)

/-- The integers from -2^63 up to below 2^64. -/
def fits64 (n : Int) : Bool := -0x8000000000000000 ≤ n && n ≤ 0xffffffffffffffff

/-- The number of a numeral: an integer of 64 bits is exact, any other numeral is the nearest
floating point number, and a numeral beyond the greatest of those has none. -/
def number? (n : Numeral) : Option Number :=
  if n.isInteger && fits64 n.integer then some (.int n.integer)
  else if n.real.isFinite then some (.real n.real)
  else none

end Numeral
end ModAtlas.Json
