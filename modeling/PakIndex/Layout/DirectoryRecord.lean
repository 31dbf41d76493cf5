import PakIndex.Error
import PakIndex.Method
import PakIndex.Layout.Descriptor

/-!
# Directory records

* `DirectoryRecord`: the fixed part of what the directory says about one file. Name, extra field
  and comment follow it.
* `DirectoryRecord.parse`, `DirectoryRecord.fixedPart`: its 46 bytes.
* `DirectoryRecord.encode`: a record with its name.
* `DirectoryRecord.totalSize`: the size of the record with its variable parts.
-/

namespace PakIndex

/-- The fixed part of a directory record. -/
structure DirectoryRecord where
  versionMadeBy : UInt16
  versionNeeded : UInt16
  flags : UInt16
  method : Method
  time : UInt16
  date : UInt16
  descriptor : Descriptor
  nameLength : UInt16
  extraLength : UInt16
  commentLength : UInt16
  diskNumberStart : UInt16
  internalAttributes : UInt16
  attributes : UInt32
  headerOffset : UInt32
  deriving Repr, DecidableEq, Inhabited

namespace DirectoryRecord

/-- The number that a directory record starts with. -/
def signature : UInt32 := 0x02014b50

/-- The size of the fixed part. -/
def fixedSize : Nat := 46

/-- The record whose fixed part starts `bs`. -/
def parse (bs : Bytes) : Except Error DirectoryRecord :=
  if bs.length < 4 then .error (.layoutCutShort fixedSize bs.length)
  else if bs.u32At 0 ≠ signature then .error (.directoryCorrupt (.badSignature (bs.u32At 0)))
  else if bs.length < fixedSize then .error (.layoutCutShort fixedSize bs.length)
  else .ok {
    versionMadeBy := bs.u16At 4
    versionNeeded := bs.u16At 6
    flags := bs.u16At 8
    method := .ofCode (bs.u16At 10)
    time := bs.u16At 12
    date := bs.u16At 14
    descriptor := .readAt bs 16
    nameLength := bs.u16At 28
    extraLength := bs.u16At 30
    commentLength := bs.u16At 32
    diskNumberStart := bs.u16At 34
    internalAttributes := bs.u16At 36
    attributes := bs.u32At 38
    headerOffset := bs.u32At 42 }

/-- The fixed part of a record with a name of the given length and with neither extra field nor
comment. -/
def fixedPart (r : DirectoryRecord) (nameLength : Nat) : Bytes :=
  le32 signature ++ le16 r.versionMadeBy ++ le16 r.versionNeeded ++ le16 r.flags
    ++ le16 r.method.code ++ le16 r.time ++ le16 r.date ++ r.descriptor.encode
    ++ le16 (.ofNat nameLength) ++ le16 0 ++ le16 0 ++ le16 r.diskNumberStart
    ++ le16 r.internalAttributes ++ le32 r.attributes ++ le32 r.headerOffset

/-- The bytes of a record with the given name and with neither extra field nor comment. -/
def encode (r : DirectoryRecord) (name : Bytes) : Bytes := r.fixedPart name.length ++ name

/-- The size of a record together with its name, extra field and comment. -/
def totalSize (r : DirectoryRecord) : Nat :=
  fixedSize + r.nameLength.toNat + r.extraLength.toNat + r.commentLength.toNat

end DirectoryRecord

end PakIndex
