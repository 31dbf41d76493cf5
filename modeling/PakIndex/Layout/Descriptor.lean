import PakIndex.Bytes

/-!
# Sizes and checksum of a payload

* `Descriptor`: the three words that directory records and local headers share.
* `Descriptor.readAt`, `Descriptor.encode`: its 12 bytes.
-/

namespace PakIndex

/-- Checksum and sizes of a payload. -/
structure Descriptor where
  crc32 : UInt32
  compressedSize : UInt32
  uncompressedSize : UInt32
  deriving Repr, DecidableEq, Inhabited

namespace Descriptor

/-- The descriptor whose bytes start at `start`. -/
def readAt (bs : Bytes) (start : Nat) : Descriptor where
  crc32 := bs.u32At start
  compressedSize := bs.u32At (start + 4)
  uncompressedSize := bs.u32At (start + 8)

/-- The 12 bytes of a descriptor. -/
def encode (d : Descriptor) : Bytes :=
  le32 d.crc32 ++ le32 d.compressedSize ++ le32 d.uncompressedSize

end Descriptor

end PakIndex
