import ModAtlas.Json.Value
import ModAtlas.Text.Printable
import ModAtlas.Text.Piece

/-!
# Literals in messages

How a value is shown inside a message: `None`, `True` and `False`, numbers in decimal, strings in
single quotes unless that would need more escapes, arrays in square and objects in curly brackets.
-/

namespace ModAtlas.Json
open ModAtlas.Text

/-- A number in lower-case hexadecimal with at least the given count of digits. -/
def hexadecimal (width n : Nat) : List Char :=
  let digits := Nat.toDigits 16 n
  List.replicate (width - digits.length) '0' ++ digits

/-- A character inside quotes: the quote and the backslash are escaped, and so is what is not
printable. -/
def quotedChar (quote c : Char) : List Char :=
  if c = quote ∨ c = '\\' then ['\\', c]
  else if c = '\n' then ['\\', 'n']
  else if c = '\r' then ['\\', 'r']
  else if c = '\t' then ['\\', 't']
  else if isPrintable c then [c]
  else if c.toNat < 0x100 then '\\' :: 'x' :: hexadecimal 2 c.toNat
  else if c.toNat < 0x10000 then '\\' :: 'u' :: hexadecimal 4 c.toNat
  else '\\' :: 'U' :: hexadecimal 8 c.toNat

/-- A string in quotes: single ones, or double ones when it holds a single but no double one. -/
def quoted (s : String) : String :=
  let quote := if s.toList.contains '\'' && !s.toList.contains '"' then '"' else '\''
  String.ofList (quote :: (s.toList.flatMap (quotedChar quote) ++ [quote]))

namespace Value

mutual

/-- A value as it is shown in a message. -/
def literal : Value → String
  | .null => "None"
  | .bool b => if b then "True" else "False"
  | .num n => n.text
  | .str s => quoted s
  | .arr items => "[" ++ join ", " (literals items) ++ "]"
  | .obj members => "\x7b" ++ join ", " (memberLiterals members) ++ "\x7d"

/-- The literals of items. -/
def literals : List Value → List String
  | [] => []
  | x :: xs => literal x :: literals xs

/-- Each member as its key and its value. -/
def memberLiterals : Members → List String
  | [] => []
  | (key, x) :: xs => (quoted key ++ ": " ++ literal x) :: memberLiterals xs

end

/-- A value as plain text: a string is its own text, anything else its literal. -/
def plain : Value → String
  | .str s => s
  | v => v.literal

end Value
end ModAtlas.Json
