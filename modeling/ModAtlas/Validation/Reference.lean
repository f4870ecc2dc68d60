import ModAtlas.Json.Value
import ModAtlas.Number.Reading
import ModAtlas.Text.Percent
import ModAtlas.Text.Piece

/-!
# References inside a schema

What a `$ref` leads to while a value is held against a schema: `#` and the empty reference to the
whole schema, `#/` and a pointer below it. Percent escapes of the whole pointer are decoded before
it is split. Other references lead nowhere.
-/

namespace ModAtlas.Validation
open ModAtlas.Json ModAtlas.Text

/-- The characters that a token stands for: `~1` is a slash, `~0` a tilde. -/
def tokenChars : List Char → List Char
  | [] => []
  | '~' :: '1' :: rest => '/' :: tokenChars rest
  | '~' :: '0' :: rest => '~' :: tokenChars rest
  | c :: rest => c :: tokenChars rest

/-- The item at an index; a negative index counts from the end. -/
def itemAt (items : List Value) (index : Int) : Option Value :=
  if 0 ≤ index then items[index.toNat]?
  else if -index ≤ items.length then items[(items.length + index).toNat]?
  else none

/-- Follows the tokens of a reference. -/
def followTokens : List (List Char) → Value → Option Value
  | [], v => some v
  | token :: tokens, v =>
    let next := match v with
      | .obj members => Members.get? members (String.ofList (tokenChars token))
      | .arr items => (Number.readInt? token).bind (itemAt items)
      | _ => none
    next.bind (followTokens tokens)

/-- What a reference leads to inside the whole schema. -/
def target? (root : Value) (ref : String) : Option Value :=
  match ref.toList with
  | [] => some root
  | ['#'] => some root
  | '#' :: '/' :: pointer => followTokens (splitOn '/' (Percent.decode pointer)) root
  | _ => none

end ModAtlas.Validation
