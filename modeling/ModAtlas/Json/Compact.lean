import ModAtlas.Json.Value
import ModAtlas.Json.Escape

/-!
# Compact JSON

How a value is written as JSON without white space: members in their order, real numbers with the
fewest digits that read back.
-/

namespace ModAtlas.Json
namespace Value

mutual

/-- A value as JSON. -/
def compact : Value → String
  | .null => "null"
  | .bool b => if b then "true" else "false"
  | .num n => n.text
  | .str s => quote s
  | .arr xs => "[" ++ String.intercalate "," (compactItems xs) ++ "]"
  | .obj ms => "\x7b" ++ String.intercalate "," (compactMembers ms) ++ "\x7d"

/-- Items as JSON. -/
def compactItems : List Value → List String
  | [] => []
  | x :: xs => compact x :: compactItems xs

/-- Each member as a key and a value. -/
def compactMembers : Members → List String
  | [] => []
  | (key, x) :: xs => (quote key ++ ":" ++ compact x) :: compactMembers xs

end

end Value
end ModAtlas.Json
