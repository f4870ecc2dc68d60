/-!
# CRC-32

The check sum that PNG chunks carry: the remainder of the octets, lowest bit first, by the
polynomial 0xEDB88320.
-/

namespace ModAtlas.Image

/-- One bit. -/
def crcBit (r : UInt32) : UInt32 :=
  if r &&& 1 == 1 then (r >>> 1) ^^^ 0xEDB88320 else r >>> 1

/-- One octet. -/
def crcOctet (r : UInt32) (octet : UInt8) : UInt32 :=
  crcBit (crcBit (crcBit (crcBit (crcBit (crcBit (crcBit (crcBit (r ^^^ octet.toUInt32))))))))

/-- The check sum of octets. -/
def crc32 (octets : List UInt8) : UInt32 :=
  octets.foldl crcOctet 0xFFFFFFFF ^^^ 0xFFFFFFFF

end ModAtlas.Image
