import PakIndex.Bytes

/-!
# The checksum of a content

* `Crc32.step`: the shift register of the reflected polynomial `0xEDB88320`, by one bit.
* `Crc32.update`: the register after one more byte, by a table of `Crc32.byteSteps`.
* `crc32`: the checksum.
-/

namespace PakIndex

namespace Crc32

/-- The reflected polynomial. -/
def polynomial : UInt32 := 0xEDB88320

/-- The register after one bit has been shifted out. -/
def step (c : UInt32) : UInt32 :=
  if c &&& 1 = 1 then (c >>> 1) ^^^ polynomial else c >>> 1

/-- The register after eight bits have been shifted out. -/
def byteSteps (c : UInt32) : UInt32 :=
  step (step (step (step (step (step (step (step c)))))))

/-- What eight shifts make of every register below 256. -/
def table : Vector UInt32 256 := .ofFn fun i => byteSteps (.ofNat i.val)

/-- The register after one more byte. -/
def update (c : UInt32) (b : UInt8) : UInt32 :=
  table.get ⟨(c.toUInt8 ^^^ b).toNat, UInt8.toNat_lt _⟩ ^^^ (c >>> 8)

end Crc32

/-- The CRC-32 checksum of a byte string. -/
def crc32 (bs : Bytes) : UInt32 := ~~~ bs.foldl Crc32.update 0xFFFFFFFF

end PakIndex
