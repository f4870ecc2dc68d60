import ModAtlas.Text.Blank
import ModAtlas.Text.Digit

/-!
# Text patterns

Patterns over texts: characters and classes of characters, the ends of the text, sequences,
alternatives and repetitions. `Pattern.ends` gives every position at which a match from a given
position can end; `Pattern.search` asks whether a match begins anywhere.

## Implementation notes

Only whether there is a match is ever asked, so a repetition is the set of positions that its
turns reach, and needs no more rounds than the text has positions.
-/

namespace ModAtlas
open ModAtlas.Text

/-- One entry of a class of characters. -/
inductive ClassItem where
  | range (low high : Char)
  | digit (inside : Bool)
  | blank (inside : Bool)
  | word (inside : Bool)
deriving DecidableEq, Repr

/-- Letters and digits of ASCII, decimal digits of any set and the underscore. -/
def isWordChar (c : Char) : Bool := c.isAlphanum || c == '_' || isDecimalDigit c

/-- Does an entry hold a character? -/
def ClassItem.holds (c : Char) : ClassItem → Bool
  | .range low high => low ≤ c && c ≤ high
  | .digit inside => isDecimalDigit c == inside
  | .blank inside => isBlank c == inside
  | .word inside => isWordChar c == inside

/-- A pattern. -/
inductive Pattern where
  | empty
  | oneOf (negated : Bool) (items : List ClassItem)
  | any
  | textStart
  | textEnd (newlineMayFollow : Bool)
  | seq (first second : Pattern)
  | alt (first second : Pattern)
  | times (least : Nat) (most : Option Nat) (body : Pattern)
deriving Repr, Inhabited

namespace Pattern

/-- Positions without repetitions. -/
def distinct (positions : List Nat) : List Nat := positions.eraseDups

/-- Where a fixed number of turns leads. -/
def exactly (step : Nat → List Nat) : Nat → List Nat → List Nat
  | 0, positions => positions
  | n + 1, positions => exactly step n (distinct (positions.flatMap step))

/-- Where up to a number of turns leads. -/
def upTo (step : Nat → List Nat) : Nat → List Nat → List Nat
  | 0, positions => positions
  | n + 1, positions => upTo step n (distinct (positions ++ positions.flatMap step))

/-- The positions at which a match from a position can end. -/
def ends (text : List Char) : Pattern → Nat → List Nat
  | .empty, i => [i]
  | .oneOf negated items, i =>
    match text[i]? with
    | some c => if items.any (·.holds c) != negated then [i + 1] else []
    | none => []
  | .any, i =>
    match text[i]? with
    | some c => if c = '\n' then [] else [i + 1]
    | none => []
  | .textStart, i => if i = 0 then [i] else []
  | .textEnd newlineMayFollow, i =>
    if i = text.length ∨ (newlineMayFollow ∧ text.drop i = ['\n']) then [i] else []
  | .seq first second, i => distinct ((ends text first i).flatMap (ends text second))
  | .alt first second, i => distinct (ends text first i ++ ends text second i)
  | .times least most body, i =>
    let required := exactly (ends text body) least [i]
    match most with
    | none => upTo (ends text body) (text.length + 1) required
    | some n => upTo (ends text body) (n - least) required

/-- Does a match begin anywhere in the text? -/
def search (p : Pattern) (text : List Char) : Bool :=
  (List.range (text.length + 1)).any fun i => !(ends text p i).isEmpty

end Pattern
end ModAtlas
