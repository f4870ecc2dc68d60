/-!
# JSON strings

The text between the quotes of a JSON string. `decode` reads it, one character at a time: a
backslash starts an escape, two `u` escapes may form a surrogate pair, and control characters
must be escaped. `quote` writes a string with the shortest escapes.
-/

namespace ModAtlas.Json

/-- The value of a hexadecimal digit. -/
def hexDigit? (c : Char) : Option Nat :=
  if '0' ≤ c ∧ c ≤ '9' then some (c.toNat - '0'.toNat)
  else if 'a' ≤ c ∧ c ≤ 'f' then some (c.toNat - 'a'.toNat + 10)
  else if 'A' ≤ c ∧ c ≤ 'F' then some (c.toNat - 'A'.toNat + 10)
  else none

/-- The character that a one-letter escape stands for. -/
def escaped? (c : Char) : Option Char :=
  if c = '"' ∨ c = '\\' ∨ c = '/' then some c
  else if c = 'b' then some '\x08'
  else if c = 'f' then some '\x0c'
  else if c = 'n' then some '\n'
  else if c = 'r' then some '\r'
  else if c = 't' then some '\t'
  else none

/-- What the reading of a string waits for. A first surrogate that was read is kept in `high`. -/
inductive Awaiting where
  | character
  | escape
  | hex (high : Option Nat) (missing bits : Nat)
  | lowBackslash (high : Nat)
  | lowLetter (high : Nat)
deriving DecidableEq, Repr

/-- What four hexadecimal digits give: a character, or the wish for a second surrogate. -/
inductive Unit16 where
  | char (c : Char)
  | first (high : Nat)
  | lone
deriving DecidableEq, Repr

/-- Reads a 16-bit unit, after a first surrogate when there is one. -/
def unit16 (high : Option Nat) (bits : Nat) : Unit16 :=
  match high with
  | some h =>
    if 0xdc00 ≤ bits ∧ bits < 0xe000 then
      .char (Char.ofNat (0x10000 + (h - 0xd800) * 0x400 + (bits - 0xdc00)))
    else .lone
  | none =>
    if 0xd800 ≤ bits ∧ bits < 0xdc00 then .first bits
    else if 0xdc00 ≤ bits ∧ bits < 0xe000 then .lone
    else .char (Char.ofNat bits)

/-- The characters that the text between quotes stands for. -/
def decodeFrom : Awaiting → List Char → Option (List Char)
  | .character, [] => some []
  | _, [] => none
  | .character, c :: rest =>
    if c = '\\' then decodeFrom .escape rest
    else if c.toNat < 0x20 then none
    else (decodeFrom .character rest).map (c :: ·)
  | .escape, c :: rest =>
    match escaped? c with
    | some d => (decodeFrom .character rest).map (d :: ·)
    | none => if c = 'u' then decodeFrom (.hex none 4 0) rest else none
  | .hex high missing bits, c :: rest =>
    match hexDigit? c with
    | none => none
    | some d =>
      let more := bits * 16 + d
      if 1 < missing then decodeFrom (.hex high (missing - 1) more) rest
      else
        match unit16 high more with
        | .char e => (decodeFrom .character rest).map (e :: ·)
        | .first h => decodeFrom (.lowBackslash h) rest
        | .lone => none
  | .lowBackslash h, c :: rest => if c = '\\' then decodeFrom (.lowLetter h) rest else none
  | .lowLetter h, c :: rest => if c = 'u' then decodeFrom (.hex (some h) 4 0) rest else none

/-- The string that the text between quotes stands for. -/
def decode (body : List Char) : Option String :=
  (decodeFrom .character body).map String.ofList

/-- A character between quotes, with the shortest escape where one is needed. -/
def encodeChar (c : Char) : List Char :=
  if c = '"' ∨ c = '\\' then ['\\', c]
  else if c = '\x08' then ['\\', 'b']
  else if c = '\t' then ['\\', 't']
  else if c = '\n' then ['\\', 'n']
  else if c = '\x0c' then ['\\', 'f']
  else if c = '\r' then ['\\', 'r']
  else if c.toNat < 0x20 then
    '\\' :: 'u' :: '0' :: '0' :: Nat.digitChar (c.toNat / 16) :: [Nat.digitChar (c.toNat % 16)]
  else [c]

/-- A string as a JSON string. -/
def quote (s : String) : String :=
  String.ofList ('"' :: (s.toList.flatMap encodeChar ++ ['"']))

/-- The text up to the next quote that no backslash precedes, and the text after that quote. A
line end before it means that there is no such quote. -/
def closing? : List Char → Option (List Char × List Char)
  | [] => none
  | ['\\'] => none
  | '\\' :: c :: rest => (closing? rest).map fun p => ('\\' :: c :: p.1, p.2)
  | c :: rest =>
    if c = '"' then some ([], rest)
    else if c = '\r' ∨ c = '\n' then none
    else (closing? rest).map fun p => (c :: p.1, p.2)

end ModAtlas.Json
