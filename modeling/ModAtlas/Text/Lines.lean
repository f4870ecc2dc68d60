/-!
# Lines and positions

A text is cut into lines at LF, CR and CRLF. A position is a line and a character on it, both
counted from zero in code points; `positionAt` and `offsetAt` go between offsets and positions
and clamp what lies outside the text. `splitLines` uses the wider set of line boundaries that
Unicode names.
-/

namespace ModAtlas.Text

/-- A line and a character on it, both from zero. -/
structure Position where
  line : Int
  character : Int
deriving DecidableEq, Repr

/-- From one position up to another. -/
structure Range where
  start : Position
  stop : Position
deriving DecidableEq, Repr

/-- Where the lines after the first start, for a text whose first character is at `here`. -/
def laterStarts : Nat → List Char → List Nat
  | _, [] => []
  | here, '\r' :: '\n' :: rest => (here + 2) :: laterStarts (here + 2) rest
  | here, c :: rest =>
    if c = '\r' ∨ c = '\n' then (here + 1) :: laterStarts (here + 1) rest
    else laterStarts (here + 1) rest

/-- The offsets at which the lines start: 0, then after every line end. -/
def lineStarts (text : List Char) : List Nat := 0 :: laterStarts 0 text

/-- An offset brought into the text. -/
def clampOffset (text : List Char) (offset : Int) : Nat := min offset.toNat text.length

/-- The position of an offset: the last line that starts at or before it. -/
def positionAt (text : List Char) (offset : Int) : Position :=
  let here := clampOffset text offset
  let reached := (lineStarts text).takeWhile (· ≤ here)
  ⟨(reached.length : Int) - 1, (here : Int) - (reached.getLast?.getD 0 : Nat)⟩

/-- The offset of a position; what lies outside its line is brought to the line's ends. -/
def offsetAt (text : List Char) (position : Position) : Nat :=
  let starts := lineStarts text
  if position.line < 0 then 0
  else
    match starts[position.line.toNat]? with
    | none => text.length
    | some start =>
      let stop := starts[position.line.toNat + 1]?.getD text.length
      (max (start : Int) (min ((start : Int) + position.character) (stop : Int))).toNat

/-- The range between two offsets. -/
def rangeBetween (text : List Char) (start stop : Int) : Range :=
  ⟨positionAt text start, positionAt text stop⟩

/-- Characters after which `splitLines` starts a new line. -/
def isLineBoundary (c : Char) : Bool :=
  let n := c.toNat
  (0xa ≤ n && n ≤ 0xd) || (0x1c ≤ n && n ≤ 0x1e) || n == 0x85 || n == 0x2028 || n == 0x2029

/-- The lines of a text without their ends, `line` being what was read of the current one. -/
def splitLinesFrom (line : List Char) : List Char → List (List Char)
  | [] => if line.isEmpty then [] else [line.reverse]
  | '\r' :: '\n' :: rest => line.reverse :: splitLinesFrom [] rest
  | c :: rest =>
    if isLineBoundary c then line.reverse :: splitLinesFrom [] rest
    else splitLinesFrom (c :: line) rest

/-- The lines of a text without their ends; a line end at the very end starts no further line. -/
def splitLines (text : List Char) : List (List Char) := splitLinesFrom [] text

/-- Every CRLF and every lone CR as one LF. -/
def unifyNewlines : List Char → List Char
  | [] => []
  | '\r' :: '\n' :: rest => '\n' :: unifyNewlines rest
  | c :: rest => (if c = '\r' then '\n' else c) :: unifyNewlines rest

end ModAtlas.Text
