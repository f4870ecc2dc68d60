/-!
# UTF-8

`scan` reads octets into characters one octet at a time. Where the octets are no character it
gives `none` once for each longest part that could still have become one. The strict reading
refuses such a text; the lenient one shows U+FFFD there.
-/

namespace ModAtlas.Text.Utf8

/-- What the octets read so far have promised: how many more the character needs, the bits it has
so far, and the least and greatest octet that may come next. -/
inductive State where
  | boundary
  | inside (missing bits low high : Nat)
deriving DecidableEq, Repr

/-- The first octet of a character. -/
def first (octet : Nat) : List (Option Char) × State :=
  if octet < 0x80 then ([some (Char.ofNat octet)], .boundary)
  else if 0xc2 ≤ octet ∧ octet ≤ 0xdf then ([], .inside 1 (octet - 0xc0) 0x80 0xbf)
  else if octet = 0xe0 then ([], .inside 2 0 0xa0 0xbf)
  else if octet = 0xed then ([], .inside 2 0xd 0x80 0x9f)
  else if 0xe1 ≤ octet ∧ octet ≤ 0xef then ([], .inside 2 (octet - 0xe0) 0x80 0xbf)
  else if octet = 0xf0 then ([], .inside 3 0 0x90 0xbf)
  else if 0xf1 ≤ octet ∧ octet ≤ 0xf3 then ([], .inside 3 (octet - 0xf0) 0x80 0xbf)
  else if octet = 0xf4 then ([], .inside 3 4 0x80 0x8f)
  else ([none], .boundary)

/-- One octet. An octet that cannot continue the character before it starts afresh. -/
def step : State → Nat → List (Option Char) × State
  | .boundary, octet => first octet
  | .inside missing bits low high, octet =>
    if low ≤ octet ∧ octet ≤ high then
      let more := bits * 64 + (octet - 0x80)
      if missing ≤ 1 then ([some (Char.ofNat more)], .boundary)
      else ([], .inside (missing - 1) more 0x80 0xbf)
    else
      let (out, state) := first octet
      (none :: out, state)

/-- The characters of the octets that follow a state. -/
def scanFrom : State → List UInt8 → List (Option Char)
  | .boundary, [] => []
  | .inside .., [] => [none]
  | state, octet :: rest =>
    let (out, state) := step state octet.toNat
    out ++ scanFrom state rest

/-- The characters of a sequence of octets, `none` for each malformed part. -/
def scan (octets : List UInt8) : List (Option Char) := scanFrom .boundary octets

/-- All characters, refused when a part is malformed. -/
def everyChar : List (Option Char) → Option (List Char)
  | [] => some []
  | none :: _ => none
  | some c :: rest => (everyChar rest).map (c :: ·)

/-- Strict reading. -/
def decode? (octets : List UInt8) : Option (List Char) := everyChar (scan octets)

/-- Lenient reading: each malformed part becomes U+FFFD. -/
def decodeLossy (octets : List UInt8) : List Char :=
  (scan octets).map (·.getD (Char.ofNat 0xfffd))

/-- The octets of one character. -/
def encodeChar (c : Char) : List UInt8 :=
  let n := c.toNat
  if n < 0x80 then [UInt8.ofNat n]
  else if n < 0x800 then [UInt8.ofNat (0xc0 + n / 64), UInt8.ofNat (0x80 + n % 64)]
  else if n < 0x10000 then
    [UInt8.ofNat (0xe0 + n / 4096), UInt8.ofNat (0x80 + n / 64 % 64), UInt8.ofNat (0x80 + n % 64)]
  else
    [UInt8.ofNat (0xf0 + n / 262144), UInt8.ofNat (0x80 + n / 4096 % 64),
      UInt8.ofNat (0x80 + n / 64 % 64), UInt8.ofNat (0x80 + n % 64)]

/-- The octets of a text. -/
def encode (text : List Char) : List UInt8 := text.flatMap encodeChar

/-- The mark that may stand before a text in UTF-8. -/
def byteOrderMark : List UInt8 := [0xef, 0xbb, 0xbf]

/-- The octets without one leading byte order mark. -/
def dropMark (octets : List UInt8) : List UInt8 :=
  (List.isPrefixOf? byteOrderMark octets).getD octets

end ModAtlas.Text.Utf8
