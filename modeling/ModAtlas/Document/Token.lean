import ModAtlas.Document.Fault
import ModAtlas.Document.Node
import ModAtlas.Json.Escape
import ModAtlas.Json.Numeral

/-!
# Tokens of a document

A cursor is an offset and the text from there on. `Cursor.skip` passes over blanks and comments;
`Leaf.string`, `Leaf.numeral` and `Leaf.plain` read the tokens of values without parts, each leaving
the cursor behind it.
-/

namespace ModAtlas.Document
open ModAtlas.Json

/-- An offset and the text from there on. -/
structure Cursor where
  offset : Nat
  rest : List Char
deriving DecidableEq, Repr

/-- What a reader gives: a result and the cursor behind it, or a failure. -/
abbrev Reader (α : Type) := Cursor → Except Failure (α × Cursor)

/-- Stops with a fault at an offset. -/
def stop {α : Type} (fault : Fault) (offset : Nat) : Except Failure α :=
  .error (.fault fault offset)

/-- Blanks between tokens; a byte order mark counts as one. -/
def isLayout (c : Char) : Bool :=
  c == ' ' || c == '\t' || c == '\r' || c == '\n' || c == '\ufeff'

/-- Where skipping stands: between tokens, or inside a comment. -/
inductive Layout where
  | open
  | line
  | block (start : Nat)
deriving DecidableEq, Repr

/-- Passes over blanks, `//` comments up to the line feed and `/* */` comments. -/
def skipFrom : Layout → Nat → List Char → Except Failure Cursor
  | .block start, _, [] => stop .unclosedComment start
  | _, offset, [] => .ok ⟨offset, []⟩
  | .open, offset, '/' :: '/' :: rest => skipFrom .line (offset + 2) rest
  | .open, offset, '/' :: '*' :: rest => skipFrom (.block offset) (offset + 2) rest
  | .open, offset, c :: rest =>
    if isLayout c then skipFrom .open (offset + 1) rest else .ok ⟨offset, c :: rest⟩
  | .line, offset, c :: rest =>
    skipFrom (if c = '\n' then .open else .line) (offset + 1) rest
  | .block _, offset, '*' :: '/' :: rest => skipFrom .open (offset + 2) rest
  | .block start, offset, _ :: rest => skipFrom (.block start) (offset + 1) rest

namespace Cursor

/-- The cursor behind the blanks and comments that start here. -/
def skip (c : Cursor) : Except Failure Cursor := skipFrom .open c.offset c.rest

/-- The cursor after a character that must stand here. -/
def expect (c : Cursor) (char : Char) (fault : Fault) : Except Failure Cursor :=
  match c.rest with
  | d :: rest => if d = char then .ok ⟨c.offset + 1, rest⟩ else stop fault c.offset
  | [] => stop fault c.offset

end Cursor

/-- A word of letters at the start of a text, what it stands for, and the text behind it. -/
def word? : List Char → Option (Scalar × Nat × List Char)
  | 't' :: 'r' :: 'u' :: 'e' :: rest => some (.bool true, 4, rest)
  | 'f' :: 'a' :: 'l' :: 's' :: 'e' :: rest => some (.bool false, 5, rest)
  | 'n' :: 'u' :: 'l' :: 'l' :: rest => some (.null, 4, rest)
  | _ => none

/-- The number of a numeral token. In ASCII digits it is that of a data file, except that a
numeral too great for one is infinite or, without fraction and exponent, exact. Digits of other
sets make integers that are always exact. An exact integer has at most `digitLimit` digits. -/
def numberOf (n : Numeral) : Except Failure Number :=
  match if n.isAscii then n.number? else none with
  | some v => .ok v
  | none =>
    if !n.isInteger then .ok (.real n.real)
    else if Number.digitLimit < n.whole.length then .error .numeralTooLong
    else .ok (.int n.integer)

/-- A value without parts and the range of its token. -/
structure Leaf where
  span : Span
  value : Scalar
deriving DecidableEq, Repr

namespace Leaf

/-- A string token, for a cursor behind its opening quote. -/
def string : Reader Leaf := fun c =>
  let start := c.offset - 1
  match closing? c.rest with
  | none => stop .unclosedString start
  | some (raw, rest) =>
    match decode raw with
    | none => stop .badEscape start
    | some s =>
      let length := raw.length + 2
      .ok (⟨⟨start, length⟩, .string s⟩, ⟨start + length, rest⟩)

/-- A numeral token. Digits of every digit set count, the first digit apart. -/
def numeral : Reader Leaf := fun c =>
  match Numeral.scan? Text.isDecimalDigit c.rest with
  | none => stop .valueExpected c.offset
  | some (n, rest) =>
    let length := n.spelling.length
    match numberOf n with
    | .error e => .error e
    | .ok v => .ok (⟨⟨c.offset, length⟩, .number v⟩, ⟨c.offset + length, rest⟩)

/-- A word or a numeral. -/
def plain : Reader Leaf := fun c =>
  match word? c.rest with
  | some (s, length, rest) => .ok (⟨⟨c.offset, length⟩, s⟩, ⟨c.offset + length, rest⟩)
  | none => numeral c

end Leaf
end ModAtlas.Document
