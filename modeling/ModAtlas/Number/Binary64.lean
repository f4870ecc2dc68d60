import ModAtlas.Text.Digit

/-!
# Binary floating point numbers

The 64-bit floating point numbers as exact values: a sign, a mantissa below 2^53 and a power of
two from -1074 up. Rounding, comparison and conversion are done on integers, so every fact about
them is a fact about integers. Main definitions: `ofRatio` rounds a quotient to the nearest
number, a tie going to the even mantissa; `ofScientific` rounds a decimal; `shortest` gives the
fewest decimal digits that round back, the nearest of those.

## Implementation notes

A number is kept in the form with the largest mantissa, so that two finite numbers of one sign
are equal exactly when their mantissas and exponents are.
-/

namespace ModAtlas

/-- A 64-bit floating point number. -/
inductive Binary64 where
  | finite (negative : Bool) (mantissa : Nat) (exponent : Int)
  | infinite (negative : Bool)
  | nan
deriving DecidableEq, Repr

namespace Binary64

/-- The exponent of the least numbers. -/
def leastExponent : Int := -1074

/-- The exponent of the greatest numbers. -/
def greatestExponent : Int := 971

/-- Zero of either sign. -/
def zero (negative : Bool) : Binary64 := .finite negative 0 leastExponent

/-- Two to the 53rd: mantissas are less. -/
def mantissaLimit : Nat := 0x20000000000000

/-- Two to the 52nd: the least mantissa of numbers above the least exponent. -/
def leastFullMantissa : Nat := 0x10000000000000

/-- Two to a power; one if the power is negative. -/
def twoTo (e : Int) : Nat := Nat.pow 2 e.toNat

/-- Ten to a power; one if the power is negative. -/
def tenTo (p : Int) : Nat := Nat.pow 10 p.toNat

/-- The numerator and denominator of `num / den` divided by `2 ^ e`. -/
def scaleDown (num den : Nat) (e : Int) : Nat × Nat :=
  (num * twoTo (-e), den * twoTo e)

/-- The nearest whole number to a quotient; of two, the even one. -/
def roundQuotient (num den : Nat) : Nat :=
  let q := num / den
  let r := num % den
  if 2 * r < den then q
  else if den < 2 * r then q + 1
  else if q % 2 = 0 then q else q + 1

/-- The number nearest to `num / den`, with the sign given. -/
def ofRatio (negative : Bool) (num den : Nat) : Binary64 :=
  if num = 0 then zero negative
  else
    let guess : Int := (num.log2 : Int) - (den.log2 : Int) - 53
    let (n, d) := scaleDown num den guess
    let e := max leastExponent (if mantissaLimit ≤ n / d then guess + 1 else guess)
    let (n, d) := scaleDown num den e
    let m := roundQuotient n d
    let (m, e) := if m = mantissaLimit then (leastFullMantissa, e + 1) else (m, e)
    if greatestExponent < e then .infinite negative else .finite negative m e

/-- The number nearest to `digits · 10 ^ power`. -/
def ofScientific (negative : Bool) (digits : Nat) (power : Int) : Binary64 :=
  if digits = 0 then zero negative
  else
    -- 10 ^ 3 < 2 ^ 10 < 10 ^ (10 / 3), so the value lies between 10 ^ least and 10 ^ most
    let most : Int := ((digits.log2 + 1) / 3 : Nat) + 1 + power
    let least : Int := (digits.log2 * 3 / 10 : Nat) + power
    if 310 < least then .infinite negative
    else if most < -326 then zero negative
    else ofRatio negative (digits * tenTo power) (tenTo (-power))

/-- The number nearest to an integer. -/
def ofInt (n : Int) : Binary64 := ofRatio (n < 0) n.natAbs 1

/-- Is it a number and not infinite? -/
def isFinite : Binary64 → Bool
  | .finite .. => true
  | _ => false

/-- A finite number as an exact quotient: numerator and denominator. -/
def ratio? : Binary64 → Option (Int × Nat)
  | .finite negative m e =>
    let n : Nat := m * twoTo e
    some (if negative then -(n : Int) else n, twoTo (-e))
  | _ => none

/-- The whole part, the fraction dropped; none of an infinite number. -/
def truncate? (x : Binary64) : Option Int := x.ratio?.map fun (n, d) => Int.tdiv n d

/-- Is it finite and whole? -/
def isWhole (x : Binary64) : Bool :=
  match x.ratio? with
  | some (n, d) => n % d == 0
  | none => false

/-- Is it zero, of either sign? -/
def isZero : Binary64 → Bool
  | .finite _ m _ => m == 0
  | _ => false

/-- The quotient of two numbers, the second not zero. -/
def divide (x y : Binary64) : Binary64 :=
  match x, y with
  | .nan, _ => .nan
  | _, .nan => .nan
  | .infinite _, .infinite _ => .nan
  | .infinite s, .finite t _ _ => .infinite (s != t)
  | .finite s _ _, .infinite t => zero (s != t)
  | .finite s m e, .finite t n f =>
    ofRatio (s != t) (m * twoTo (e - f)) (n * twoTo (f - e))

/-! ## Shortest digits -/

/-- The decimal digits of a whole number. -/
def decimalDigits (n : Nat) : List Char := Nat.toDigits 10 n

/-- Compares `c · 10 ^ p` with `num / den`. -/
def compareGrid (c : Nat) (p : Int) (num den : Nat) : Ordering :=
  compare (c * tenTo p * den) (num * tenTo (-p))

/-- The exponent of the first decimal digit of `num / den`, found next to an estimate. -/
def leadingPower (num den : Nat) : Int :=
  let estimate : Int := (((num.log2 : Int) - (den.log2 : Int)) * 30103).fdiv 100000
  let reached (p : Int) : Bool := (compareGrid 1 p num den).isLE
  if reached (estimate + 1) then estimate + 1
  else if reached estimate then estimate
  else estimate - 1

/-- The numbers that round to a mantissa and exponent: the value and the ends of the interval
as numerators over one denominator, and whether the ends belong to it. -/
structure Interval where
  value : Nat
  low : Nat
  high : Nat
  denominator : Nat
  closed : Bool

/-- The interval of a positive number. Below a power of two the gap is half as wide. -/
def Interval.of (m : Nat) (e : Int) : Interval :=
  let up := twoTo e
  let below := if m = leastFullMantissa ∧ leastExponent < e then 1 else 2
  ⟨4 * m * up, (4 * m - below) * up, (4 * m + 2) * up, 4 * twoTo (-e), m % 2 = 0⟩

/-- Does `c · 10 ^ p` round to the number? -/
def Interval.holds (i : Interval) (c : Nat) (p : Int) : Bool :=
  match compareGrid c p i.low i.denominator, compareGrid c p i.high i.denominator with
  | .gt, .lt => true
  | .eq, _ => i.closed
  | _, .eq => i.closed
  | _, _ => false

/-- Of the two multiples of `10 ^ p` around the number, the nearest one that rounds to it. -/
def Interval.nearest? (i : Interval) (p : Int) : Option Nat :=
  let c := i.value * tenTo (-p) / (i.denominator * tenTo p)
  match i.holds c p, i.holds (c + 1) p with
  | false, false => none
  | true, false => some c
  | false, true => some (c + 1)
  | true, true =>
    match compareGrid (2 * c + 1) p (2 * i.value) i.denominator with
    | .gt => some c
    | .lt => some (c + 1)
    | .eq => some (if c % 2 = 0 then c else c + 1)

/-- The first grid, from coarse to fine, on which a point rounds to the number. -/
def Interval.search (i : Interval) : Nat → Int → Nat × Int
  | 0, p => (i.value * tenTo (-p) / (i.denominator * tenTo p), p)
  | more + 1, p =>
    match i.nearest? p with
    | some c => (c, p)
    | none => i.search more (p - 1)

/-- The fewest digits that round back to a positive number, and the power of ten of the last. -/
def shortest (m : Nat) (e : Int) : Nat × Int :=
  let i := Interval.of m e
  i.search 17 (leadingPower i.value i.denominator)

/-! ## Text -/

/-- Zeros in a row. -/
def zeros (n : Nat) : List Char := List.replicate n '0'

/-- Digits without the zeros at their end. -/
def dropLastZeros (digits : List Char) : List Char :=
  (digits.reverse.dropWhile (· == '0')).reverse

/-- An exponent with its sign and at least two digits. -/
def exponentText (p : Int) : List Char :=
  let digits := decimalDigits p.natAbs
  (if p < 0 then '-' else '+') :: (zeros (2 - digits.length) ++ digits)

/-- Digits laid out with the first digit at `10 ^ lead`: positionally from 10^-4 up to below
10^16, always with a fraction, and with an exponent elsewhere. -/
def layOut (digits : List Char) (lead : Int) : List Char :=
  if -4 ≤ lead ∧ lead < 0 then '0' :: '.' :: (zeros (-lead - 1).toNat ++ digits)
  else if 0 ≤ lead ∧ lead < 16 then
    let whole := lead.toNat + 1
    if digits.length ≤ whole then digits ++ zeros (whole - digits.length) ++ ['.', '0']
    else digits.take whole ++ '.' :: digits.drop whole
  else
    match digits with
    | [] => []
    | [d] => d :: 'e' :: exponentText lead
    | d :: more => d :: '.' :: (more ++ 'e' :: exponentText lead)

/-- The number in as few digits as read back. -/
def text : Binary64 → String
  | .nan => "nan"
  | .infinite negative => if negative then "-inf" else "inf"
  | .finite negative m e =>
    let sign := if negative then ['-'] else []
    if m = 0 then String.ofList (sign ++ ['0', '.', '0'])
    else
      let (c, p) := shortest m e
      let digits := decimalDigits c
      String.ofList (sign ++ layOut (dropLastZeros digits) (p + digits.length - 1))

end Binary64
end ModAtlas
