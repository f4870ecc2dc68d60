import ModAtlas.Text.Piece
import ModAtlas.Text.Digit
import ModAtlas.Json.Escape

/-!
# Hosts in brackets

The authority of a URI may name a host in square brackets. Brackets come in pairs and hold an
IPv6 address or a future form that starts with `v`. Characters that only look like a delimiter of
the authority have no place in it.
-/

namespace ModAtlas.Files.Authority
open ModAtlas.Text ModAtlas.Json

/-- A decimal octet without leading zeros. -/
def isOctet (s : List Char) : Bool :=
  !s.isEmpty && s.length ≤ 3 && s.all isAsciiDigit && (s.length == 1 || s.head? != some '0') &&
    decide ((String.ofList s).toNat?.getD 256 ≤ 255)

/-- Four decimal octets. -/
def isFourOctets (s : List Char) : Bool :=
  let parts := splitOn '.' s
  parts.length == 4 && parts.all isOctet

/-- One to four hexadecimal digits. -/
def isHextet (s : List Char) : Bool :=
  !s.isEmpty && s.length ≤ 4 && s.all fun c => (hexDigit? c).isSome

/-- The parts between colons of an address, four octets at the end counting as two parts. -/
def addressParts (s : List Char) : Option (List (List Char)) :=
  let parts := splitOn ':' s
  match parts.getLast? with
  | some last =>
    if last.contains '.' then
      if isFourOctets last then some (parts.dropLast ++ [['0'], ['0']]) else none
    else some parts
  | none => none

/-- Eight parts, or fewer with one gap. An end may be empty only beside the gap. -/
def partsFit (parts : List (List Char)) : Bool :=
  let inner := parts.tail.dropLast
  match (inner.filter (·.isEmpty)).length with
  | 0 => parts.length == 8 && parts.all isHextet
  | 1 =>
    let gap := (inner.takeWhile (!·.isEmpty)).length + 1
    let ahead := parts.take gap
    let behind := parts.drop (gap + 1)
    let side (ps : List (List Char)) (edge : Option (List Char)) : Option Nat :=
      if edge = some [] then (if ps.length = 1 then some 0 else none)
      else if ps.all isHextet then some ps.length else none
    match side ahead ahead.head?, side behind behind.getLast? with
    | some m, some n => m + n < 8
    | _, _ => false
  | _ => false

/-- An IPv6 address, with a zone after a percent sign if there is one. -/
def isAddress (s : List Char) : Bool :=
  let (address, zoned) := match cut? '%' s with
    | none => (s, true)
    | some (address, zone) => (address, !zone.isEmpty && !zone.contains '%')
  zoned && 3 ≤ (splitOn ':' address).length &&
    match addressParts address with
    | none => false
    | some parts => parts.length ≤ 9 && partsFit parts

/-- A future form: `v`, hexadecimal digits, a dot and something after it. -/
def isFuture (s : List Char) : Bool :=
  match s with
  | 'v' :: rest =>
    match cut? '.' rest with
    | some (version, name) =>
      !version.isEmpty && version.all (fun c => (hexDigit? c).isSome) && !name.isEmpty &&
        name.head? != some '\n'
    | none => false
  | _ => false

/-- Are the brackets of an authority in order? -/
def bracketsFit (authority : List Char) : Bool :=
  match authority.contains '[', authority.contains ']' with
  | false, false => true
  | true, true =>
    let host := before ']' ((authority.dropWhile (· != '[')).drop 1)
    if host.head? = some 'v' then isFuture host else isAddress host
  | _, _ => false

/-- The code points outside ASCII whose compatibility form holds one of `/`, `?`, `#`, `@`, `:`. -/
def delimiterLike : List Nat := [
  0x2047, 0x2048, 0x2049, 0x2100, 0x2101, 0x2105, 0x2106, 0x2a74, 0xfe13, 0xfe16, 0xfe55, 0xfe56,
  0xfe5f, 0xfe6b, 0xff03, 0xff0f, 0xff1a, 0xff1f, 0xff20]

/-- Can it be the authority of a URI? -/
def isSound (authority : List Char) : Bool :=
  bracketsFit authority && !authority.any (delimiterLike.contains ·.toNat)

end ModAtlas.Files.Authority
