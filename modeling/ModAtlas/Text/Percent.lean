import ModAtlas.Text.Utf8
import ModAtlas.Json.Escape

/-!
# Percent escapes

An octet may be written as a percent sign and two hexadecimal digits. `decode` reads escapes as
UTF-8, malformed parts becoming U+FFFD; a percent sign without two digits stays as it is.
-/

namespace ModAtlas.Text.Percent
open ModAtlas.Json

/-- Octets that stand for themselves in a path. -/
def isPlain (octet : UInt8) : Bool :=
  let c := Char.ofNat octet.toNat
  ('a' ≤ c && c ≤ 'z') || ('A' ≤ c && c ≤ 'Z') || ('0' ≤ c && c ≤ '9') ||
    c == '_' || c == '.' || c == '-' || c == '~' || c == '/'

/-- An upper-case hexadecimal digit. -/
def upperHex (n : Nat) : Char := (Nat.digitChar n).toUpper

/-- An octet of a path, escaped unless it is plain. -/
def encodeOctet (octet : UInt8) : List Char :=
  if isPlain octet then [Char.ofNat octet.toNat]
  else ['%', upperHex (octet.toNat / 16), upperHex (octet.toNat % 16)]

/-- A text as plain octets and escapes. -/
def encode (text : List Char) : List Char := (Utf8.encode text).flatMap encodeOctet

/-- Escapes decoded. `pending` holds, last first, the octets read since the last character beyond
ASCII: escapes make up characters together with what stands around them. -/
def decodeFrom (pending : List UInt8) : List Char → List Char
  | [] => Utf8.decodeLossy pending.reverse
  | '%' :: a :: b :: rest =>
    match hexDigit? a, hexDigit? b with
    | some x, some y => decodeFrom (UInt8.ofNat (x * 16 + y) :: pending) rest
    | _, _ => decodeFrom (UInt8.ofNat '%'.toNat :: pending) (a :: b :: rest)
  | c :: rest =>
    if c.toNat < 0x80 then decodeFrom (UInt8.ofNat c.toNat :: pending) rest
    else Utf8.decodeLossy pending.reverse ++ c :: decodeFrom [] rest

/-- Escapes decoded as UTF-8; what is no escape stays. -/
def decode (text : List Char) : List Char := decodeFrom [] text

end ModAtlas.Text.Percent
