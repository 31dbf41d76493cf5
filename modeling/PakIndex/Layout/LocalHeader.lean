import PakIndex.Error
import PakIndex.Method
import PakIndex.Layout.Descriptor

/-!
# Local headers

* `LocalHeader`: the fixed part of the header in front of a payload. Name and extra field follow.
* `LocalHeader.parse`, `LocalHeader.fixedPart`: its 30 bytes.
* `LocalHeader.encode`: a header with its name and extra field.
-/

namespace PakIndex

/-- The fixed part of the header in front of a payload. -/
structure LocalHeader where
  versionNeeded : UInt16
  flags : UInt16
  method : Method
  time : UInt16
  date : UInt16
  descriptor : Descriptor
  nameLength : UInt16
  extraLength : UInt16
  deriving Repr, DecidableEq, Inhabited

namespace LocalHeader

/-- The number that a local header starts with. -/
def signature : UInt32 := 0x04034b50

/-- The size of the fixed part. -/
def fixedSize : Nat := 30

/-- The header whose fixed part starts `bs`; none if the signature is missing. -/
def parse (bs : Bytes) : Except Error (Option LocalHeader) :=
  if bs.length < 4 then .error (.layoutCutShort fixedSize bs.length)
  else if bs.u32At 0 ≠ signature then .ok none
  else if bs.length < fixedSize then .error (.layoutCutShort fixedSize bs.length)
  else .ok (some {
    versionNeeded := bs.u16At 4
    flags := bs.u16At 6
    method := .ofCode (bs.u16At 8)
    time := bs.u16At 10
    date := bs.u16At 12
    descriptor := .readAt bs 14
    nameLength := bs.u16At 26
    extraLength := bs.u16At 28 })

/-- The fixed part of a header whose name and extra field have the given lengths. -/
def fixedPart (h : LocalHeader) (nameLength extraLength : Nat) : Bytes :=
  le32 signature ++ le16 h.versionNeeded ++ le16 h.flags ++ le16 h.method.code ++ le16 h.time
    ++ le16 h.date ++ h.descriptor.encode ++ le16 (.ofNat nameLength) ++ le16 (.ofNat extraLength)

/-- The bytes of a header with the given name and extra field. -/
def encode (h : LocalHeader) (name extra : Bytes) : Bytes :=
  h.fixedPart name.length extra.length ++ name ++ extra

end LocalHeader

end PakIndex
