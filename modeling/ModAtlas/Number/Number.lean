import ModAtlas.Number.Binary64

/-!
# Numbers

A number of a data file is an integer of any size or a binary floating point number; which of
the two it is stays visible. Comparison is by value across both kinds and exact.
-/

namespace ModAtlas

/-- An integer or a floating point number. -/
inductive Number where
  | int (n : Int)
  | real (x : Binary64)
deriving DecidableEq, Repr

namespace Number

/-- The value as an exact quotient, none of an infinite number. -/
def ratio? : Number → Option (Int × Nat)
  | .int n => some (n, 1)
  | .real x => x.ratio?

/-- Is the first less than the second? Nothing is less or greater than `nan`. -/
def lt (a b : Number) : Bool :=
  match a, b with
  | .real .nan, _ => false
  | _, .real .nan => false
  | .real (.infinite s), .real (.infinite t) => s && !t
  | .real (.infinite s), _ => s
  | _, .real (.infinite t) => !t
  | a, b =>
    match a.ratio?, b.ratio? with
    | some (n, d), some (m, e) => n * e < m * d
    | _, _ => false

/-- Do both have the same value? -/
def same (a b : Number) : Bool :=
  match a, b with
  | .real (.infinite s), .real (.infinite t) => s == t
  | a, b =>
    match a.ratio?, b.ratio? with
    | some (n, d), some (m, e) => n * e == m * d
    | _, _ => false

/-- Is it whole? -/
def isWhole : Number → Bool
  | .int _ => true
  | .real x => x.isWhole

/-- Is it zero? -/
def isZero : Number → Bool
  | .int n => n == 0
  | .real x => x.isZero

/-- The number in decimal. -/
def text : Number → String
  | .int n => toString n
  | .real x => x.text

end Number
end ModAtlas
