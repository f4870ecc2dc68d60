import ModAtlas.Image.Crc32
import ModAtlas.Files.Tree

/-!
# Image sizes

Width and height of a PNG or DDS image, read from its header. What the file holds decides which
of the two it is, not its name. Files of other kinds, damaged headers, pixel formats that cannot
be decoded and images of too many pixels have no size; a PNG header that is too short is a fault
of its own.
-/

namespace ModAtlas.Image
open ModAtlas.Files

/-- Width and height. -/
structure Size where
  width : Nat
  height : Nat
deriving DecidableEq, Repr

/-- A PNG header chunk shorter than its fields. -/
inductive Fault where
  | shortHeader
deriving DecidableEq, Repr

/-- The most pixels that an image may have. -/
def pixelLimit : Nat := 178956970

/-- A size with neither side empty and not too many pixels. -/
def Size.checked (s : Size) : Option Size :=
  if s.width = 0 ∨ s.height = 0 ∨ pixelLimit < s.width * s.height then none else some s

/-- The number that octets write, greatest first. -/
def bigEndian (octets : List UInt8) : Nat := octets.foldl (fun n o => n * 256 + o.toNat) 0

/-- The number of the four octets at an offset, least first. -/
def word? (octets : List UInt8) (offset : Nat) : Option Nat :=
  let four := (octets.drop offset).take 4
  if four.length = 4 then some (bigEndian four.reverse) else none

/-! ## PNG -/

/-- The octets at the start of every PNG file. -/
def pngSignature : List UInt8 := [0x89, 0x50, 0x4e, 0x47, 0x0d, 0x0a, 0x1a, 0x0a]

/-- The pairs of bit depth and colour type that exist. -/
def pngModes : List (Nat × Nat) :=
  [(1, 0), (2, 0), (4, 0), (8, 0), (16, 0), (8, 2), (16, 2), (1, 3), (2, 3), (4, 3), (8, 3),
    (8, 4), (16, 4), (8, 6), (16, 6)]

/-- What the header chunk says: the size, and whether the mode exists. -/
structure PngHeader where
  size : Size
  modeExists : Bool
deriving DecidableEq, Repr

/-- A chunk's kind, its octets and what follows its check sum; none if it is cut short or its
check sum is wrong. -/
structure Chunk where
  kind : List UInt8
  body : List UInt8
  sum : List UInt8
  rest : List UInt8

/-- The chunk at the start of octets, without looking at its check sum. -/
def chunk? (octets : List UInt8) : Option Chunk :=
  let head := octets.take 8
  if head.length < 8 then none
  else
    let length := bigEndian (head.take 4)
    let after := octets.drop 8
    some ⟨head.drop 4, after.take length, (after.drop length).take 4, after.drop (length + 4)⟩

/-- Is the kind of a chunk made of letters, digits and underscores? -/
def isChunkKind (kind : List UInt8) : Bool :=
  kind.length == 4 && kind.all fun o =>
    let c := Char.ofNat o.toNat
    c.isAlphanum || c == '_'

/-- Is the check sum right? -/
def Chunk.sumFits (c : Chunk) : Bool :=
  c.sum.length == 4 && bigEndian c.sum == (crc32 (c.kind ++ c.body)).toNat

/-- The octets of an ASCII name. -/
def ascii (name : String) : List UInt8 := name.toList.map fun c => UInt8.ofNat c.toNat

/-- Reads chunks up to the first of the image data or the end. -/
def pngChunks : Nat → Option PngHeader → List UInt8 → Except Fault (Option PngHeader)
  | 0, _, _ => .ok none
  | fuel + 1, header, octets =>
    match chunk? octets with
    | none => .ok none
    | some c =>
      let declared := bigEndian (octets.take 4)
      if !isChunkKind c.kind then .ok none
      else if c.kind = ascii "IDAT" ∨ c.kind = ascii "IEND" then .ok header
      else if c.body.length < declared then .ok none
      else if c.kind = ascii "IHDR" then
        if declared < 13 then .error .shortHeader
        else
          let octetAt (i : Nat) : Nat := (c.body[i]?.getD 0).toNat
          let size : Size := ⟨bigEndian (c.body.take 4), bigEndian ((c.body.drop 4).take 4)⟩
          if octetAt 11 != 0 || !c.sumFits then .ok none
          else
            pngChunks fuel (some ⟨size, pngModes.contains (octetAt 8, octetAt 9)⟩) c.rest
      else if c.sumFits then pngChunks fuel header c.rest
      else .ok none

/-- The size of a PNG image. -/
def pngSize (octets : List UInt8) : Except Fault (Option Size) :=
  (pngChunks octets.length none (octets.drop 8)).map fun header =>
    header.bind fun h => if h.modeExists then h.size.checked else none

/-! ## DDS -/

/-- The octets at the start of every DDS file. -/
def ddsSignature : List UInt8 := ascii "DDS "

/-- The compressed formats that can be decoded. -/
def ddsFormats : List String :=
  ["DXT1", "DXT3", "DXT5", "BC4U", "ATI1", "BC5S", "BC5U", "ATI2"]

/-- The formats of the extended header that can be decoded. -/
def extendedFormats : List Nat :=
  [27, 28, 29, 70, 71, 73, 74, 76, 77, 79, 80, 82, 83, 84, 95, 96, 97, 98, 99]

/-- Can the pixel format of a DDS image be decoded? -/
def ddsDecodable (octets : List UInt8) (flags bits : Nat) : Bool :=
  let has (flag : Nat) : Bool := flags / flag % 2 == 1
  if has 0x40 then true
  else if has 0x20000 then bits == 8 || (bits == 16 && has 0x1)
  else if has 0x20 then true
  else if has 0x4 then
    let name := (octets.drop 84).take 4
    ddsFormats.any (fun f => ascii f == name) ||
      (name == ascii "DX10" && ((word? octets 128).map extendedFormats.contains).getD false)
  else false

/-- The size of a DDS image. -/
def ddsSize (octets : List UInt8) : Option Size := do
  let headerSize ← word? octets 4
  let height ← word? octets 12
  let width ← word? octets 16
  let flags ← word? octets 80
  let bits ← word? octets 88
  if headerSize = 124 ∧ (octets.take 128).length = 128 ∧ ddsDecodable octets flags bits then
    Size.checked ⟨width, height⟩
  else none

/-- The size of an image from its octets. -/
def sizeOf? (octets : List UInt8) : Except Fault (Option Size) :=
  if pngSignature.isPrefixOf octets then pngSize octets
  else if ddsSignature.isPrefixOf octets then .ok (ddsSize octets)
  else .ok none

/-- The size of the image in a file; a file that cannot be read has none. -/
def sizeAt (t : Tree) (path : String) : Except Fault (Option Size) :=
  match t.octets (Path.ofString path) with
  | .error _ => .ok none
  | .ok octets => sizeOf? octets

end ModAtlas.Image
