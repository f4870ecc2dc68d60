import ModAtlas.Json.Value
import ModAtlas.Number.Reading
import ModAtlas.Text.Piece

/-!
# JSON pointers

A pointer names a place inside a JSON value: for each step a slash and a token, in which `~`
and `/` are written `~0` and `~1`. `resolve` follows a pointer; slashes at its start count once.
A `$ref` that starts with `#` is local and holds a pointer.
-/

namespace ModAtlas.Schema
open ModAtlas.Text ModAtlas.Json

namespace Pointer

/-- A key as it stands in a pointer. -/
def escapeChar (c : Char) : List Char :=
  if c = '~' then ['~', '0'] else if c = '/' then ['~', '1'] else [c]

/-- A key as a token of a pointer. -/
def escape (key : String) : String := String.ofList (key.toList.flatMap escapeChar)

/-- The characters that a token stands for. -/
def unescapeChars : List Char → List Char
  | [] => []
  | '~' :: '1' :: rest => '/' :: unescapeChars rest
  | '~' :: '0' :: rest => '~' :: unescapeChars rest
  | c :: rest => c :: unescapeChars rest

/-- The key that a token stands for. -/
def unescape (token : List Char) : String := String.ofList (unescapeChars token)

/-- A pointer one key further. -/
def child (pointer key : String) : String := pointer ++ "/" ++ escape key

/-- A pointer one item further. -/
def item (pointer : String) (index : Nat) : String := pointer ++ "/" ++ toString index

/-- Why a pointer cannot be followed: a token shows a digit but is no numeral. -/
inductive Error where
  | badIndex
deriving DecidableEq, Repr

/-- Does a token claim to be the index of an item? -/
def isIndex (token : String) : Bool := !token.isEmpty && token.toList.all isDigitLike

/-- One step: a member of an object or an item of an array. -/
def enter (token : String) : Value → Except Error (Option Value)
  | .obj members => .ok (Members.get? members token)
  | .arr items =>
    if isIndex token then
      match Number.readInt? token.toList with
      | none => .error .badIndex
      | some n => .ok items[n.toNat]?
    else .ok none
  | _ => .ok none

/-- All steps, as far as there is something to enter. -/
def follow : List String → Value → Except Error (Option Value)
  | [], v => .ok (some v)
  | token :: tokens, v => do
    match ← enter token v with
    | none => .ok none
    | some w => follow tokens w

/-- The tokens of a pointer. -/
def tokens (pointer : String) : List String :=
  (splitOn '/' (pointer.toList.dropWhile (· == '/'))).map unescape

/-- What a pointer leads to inside a value. -/
def resolve (root : Value) (pointer : String) : Except Error (Option Value) :=
  if pointer.isEmpty then .ok (some root) else follow (tokens pointer) root

/-- The pointer of a local reference: `#`, or `#/` and more on the same line. One line feed may
end it. -/
def localTarget? : Value → Option String
  | .str ref =>
    match ref.toList with
    | '#' :: rest =>
      match dropLastNewline rest with
      | [] => some (String.ofList rest)
      | c :: more =>
        if c = '/' ∧ '\n' ∉ more then some (String.ofList rest) else none
    | _ => none
  | _ => none

/-- Is a pointer a root or below it? The empty root has everything below it. -/
def within (pointer root : String) : Bool :=
  root.isEmpty || pointer == root || (root ++ "/").toList.isPrefixOf pointer.toList

end Pointer
end ModAtlas.Schema
