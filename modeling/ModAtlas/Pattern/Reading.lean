import ModAtlas.Pattern.Basic
import ModAtlas.Json.Escape

/-!
# Reading patterns

The text form of patterns: `^`, `$`, `.`, classes in square brackets, groups, `|`, the
repetitions `*`, `+`, `?` and `{m,n}`, and escapes. A text that is no pattern, for example for
want of a closing bracket, has none.

## Implementation notes

Open groups are kept on a stack. A turn of the loop takes at least one character, so the length
of the text is fuel enough.

This is a part of the syntax that patterns are commonly written in. Left out, and so taken for no
pattern: marks of options such as `(?i)`, what is looked for ahead or behind, named and numbered
groups with the references back to them, and the escapes `\A`, `\Z`, `\b` and `\B`. Beyond
ASCII `\w` knows decimal digits only. Nothing that is proved of matching or of the validation of
documents rests on it: both take the test of patterns as a parameter.
-/

namespace ModAtlas.Pattern
open ModAtlas.Text ModAtlas.Json

/-- A group being read: the alternatives behind it and the parts of the current one, both with
the latest first, each part with a mark that it may be repeated. -/
structure Group where
  alternatives : List Pattern
  parts : List (Pattern × Bool)
deriving Inhabited

/-- Parts in a row, given latest first. -/
def sequence (parts : List (Pattern × Bool)) : Pattern :=
  match parts with
  | [] => .empty
  | p :: earlier => earlier.foldl (fun tail q => .seq q.1 tail) p.1

/-- The pattern of a finished group. -/
def Group.close (g : Group) : Pattern :=
  g.alternatives.foldl (fun last a => .alt a last) (sequence g.parts)

/-- Adds a part. -/
def Group.add (g : Group) (p : Pattern) (repeatable : Bool) : Group :=
  ⟨g.alternatives, (p, repeatable) :: g.parts⟩

/-- Ends the current alternative. -/
def Group.branch (g : Group) : Group := ⟨sequence g.parts :: g.alternatives, []⟩

/-- Repeats the latest part, unless there is none or it is repeated already. -/
def Group.repeatLast (g : Group) (least : Nat) (most : Option Nat) : Option Group :=
  match g.parts with
  | (p, true) :: earlier => some ⟨g.alternatives, (.times least most p, false) :: earlier⟩
  | _ => none

/-- A single character as a class. -/
def single (c : Char) : ClassItem := .range c c

/-- Hexadecimal digits as a character. -/
def hexChar? (digits : List Char) : Option Char :=
  (digits.foldl (fun n c => do some ((← n) * 16 + (← hexDigit? c))) (some 0)).map Char.ofNat

/-- What follows a backslash: a class, and the text after it. Letters without a meaning are
refused, all other characters stand for themselves. -/
def escapeItem : List Char → Option (ClassItem × List Char)
  | [] => none
  | 'd' :: rest => some (.digit true, rest)
  | 'D' :: rest => some (.digit false, rest)
  | 's' :: rest => some (.blank true, rest)
  | 'S' :: rest => some (.blank false, rest)
  | 'w' :: rest => some (.word true, rest)
  | 'W' :: rest => some (.word false, rest)
  | 'n' :: rest => some (single '\n', rest)
  | 'r' :: rest => some (single '\r', rest)
  | 't' :: rest => some (single '\t', rest)
  | 'f' :: rest => some (single '\x0c', rest)
  | 'v' :: rest => some (single '\x0b', rest)
  | 'a' :: rest => some (single '\x07', rest)
  | 'x' :: a :: b :: rest => (hexChar? [a, b]).map fun c => (single c, rest)
  | 'u' :: a :: b :: c :: d :: rest => (hexChar? [a, b, c, d]).map fun e => (single e, rest)
  | c :: rest => if c.isAlphanum then none else some (single c, rest)

/-- The end of a range in a class. -/
def rangeEnd : List Char → Option (Char × List Char)
  | [] => none
  | '\\' :: rest =>
    match escapeItem rest with
    | some (.range low high, rest) => if low = high then some (low, rest) else none
    | _ => none
  | c :: rest => some (c, rest)

/-- The entries of a class up to its closing bracket. -/
def classItems : Nat → Bool → List Char → Option (List ClassItem × List Char)
  | 0, _, _ => none
  | _ + 1, _, [] => none
  | fuel + 1, isFirst, c :: rest =>
    if c = ']' ∧ !isFirst then some ([], rest)
    else do
      let (item, rest) ← if c = '\\' then escapeItem rest else some (single c, rest)
      match rest with
      | '-' :: after =>
        match after with
        | ']' :: _ =>
          let (more, rest) ← classItems fuel false rest
          some (item :: more, rest)
        | _ =>
          let (high, rest) ← rangeEnd after
          match item with
          | .range low _ =>
            if high < low then none
            else
              let (more, rest) ← classItems fuel false rest
              some (.range low high :: more, rest)
          | _ => none
      | _ =>
        let (more, rest) ← classItems fuel false rest
        some (item :: more, rest)

/-- A class behind its opening bracket. -/
def charClass (text : List Char) : Option (Pattern × List Char) :=
  let (negated, rest) := match text with
    | '^' :: rest => (true, rest)
    | rest => (false, rest)
  (classItems (rest.length + 1) true rest).map fun p => (.oneOf negated p.1, p.2)

/-- The bounds of a repetition behind its opening brace; other braces are characters. -/
def bounds? (text : List Char) : Option (Nat × Option Nat × List Char) :=
  let number (ds : List Char) : Nat := (String.ofList ds).toNat?.getD 0
  let least := text.takeWhile isAsciiDigit
  match text.dropWhile isAsciiDigit with
  | '}' :: rest => if least.isEmpty then none else some (number least, some (number least), rest)
  | ',' :: after =>
    let most := after.takeWhile isAsciiDigit
    match after.dropWhile isAsciiDigit with
    | '}' :: rest =>
      some (number least, if most.isEmpty then none else some (number most), rest)
    | _ => none
  | _ => none

/-- A mark behind a repetition that only says which match is preferred. -/
def dropPreference : List Char → List Char
  | '?' :: rest => rest
  | rest => rest

/-- Reads a pattern text, the innermost open group first on the stack. -/
def readFrom : Nat → List Group → Group → List Char → Option Pattern
  | 0, _, _, _ => none
  | _ + 1, [], g, [] => some g.close
  | _ + 1, _ :: _, _, [] => none
  | fuel + 1, outer, g, c :: rest =>
    let again (least : Nat) (most : Option Nat) (rest : List Char) : Option Pattern :=
      (g.repeatLast least most).bind fun g => readFrom fuel outer g (dropPreference rest)
    match c with
    | '|' => readFrom fuel outer g.branch rest
    | '(' =>
      match rest with
      | '?' :: ':' :: rest => readFrom fuel (g :: outer) ⟨[], []⟩ rest
      | '?' :: _ => none
      | _ => readFrom fuel (g :: outer) ⟨[], []⟩ rest
    | ')' =>
      match outer with
      | [] => none
      | parent :: outer => readFrom fuel outer (parent.add g.close true) rest
    | '[' => (charClass rest).bind fun p => readFrom fuel outer (g.add p.1 true) p.2
    | '*' => again 0 none rest
    | '+' => again 1 none rest
    | '?' => again 0 (some 1) rest
    | '{' =>
      match bounds? rest with
      | none => readFrom fuel outer (g.add (.oneOf false [single c]) true) rest
      | some (least, most, rest) =>
        if most.any (· < least) then none else again least most rest
    | '.' => readFrom fuel outer (g.add .any true) rest
    | '^' => readFrom fuel outer (g.add .textStart false) rest
    | '$' => readFrom fuel outer (g.add (.textEnd true) false) rest
    | '\\' => (escapeItem rest).bind fun p =>
        readFrom fuel outer (g.add (.oneOf false [p.1]) true) p.2
    | c => readFrom fuel outer (g.add (.oneOf false [single c]) true) rest

/-- The pattern that a text writes. -/
def read? (text : String) : Option Pattern :=
  readFrom (text.toList.length + 1) [] ⟨[], []⟩ text.toList

/-- Does the pattern that a text writes match somewhere in a name? A text that is no pattern
matches nothing. -/
def test (text name : String) : Bool :=
  match read? text with
  | none => false
  | some pattern => pattern.search name.toList

end ModAtlas.Pattern
