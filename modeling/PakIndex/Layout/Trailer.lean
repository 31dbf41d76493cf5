import PakIndex.Error

/-!
# The trailer

* `Trailer`: the record that closes an archive and says where its directory lies.
* `Trailer.parse`, `Trailer.encode`: its 22 bytes, which start with `Trailer.signature`.
* `Trailer.singleVolume`: the trailer of an archive in one piece.
-/

namespace PakIndex

/-- The record that closes an archive, followed only by the comment. -/
structure Trailer where
  /-- Number of this volume; the top two bits may declare an old encryption technique. -/
  disk : UInt16
  directoryStartDisk : UInt16
  entriesOnDisk : UInt16
  entriesTotal : UInt16
  directorySize : UInt32
  directoryOffset : UInt32
  commentLength : UInt16
  deriving Repr, DecidableEq, Inhabited

namespace Trailer

/-- The bytes that a trailer starts with. -/
def signature : Bytes := [0x50, 0x4B, 0x05, 0x06]

/-- The size of a trailer without its comment. -/
def fixedSize : Nat := 22

/-- The trailer of an archive in one volume. -/
def singleVolume (entries : UInt16) (directoryOffset directorySize : UInt32)
    (commentLength : UInt16) : Trailer where
  disk := 0
  directoryStartDisk := 0
  entriesOnDisk := entries
  entriesTotal := entries
  directorySize
  directoryOffset
  commentLength

/-- The trailer at the start of `bs`. -/
def parse (bs : Bytes) : Except Error Trailer :=
  if bs.length < fixedSize ∨ bs.take 4 ≠ signature then .error .noTrailerFound
  else .ok {
    disk := bs.u16At 4
    directoryStartDisk := bs.u16At 6
    entriesOnDisk := bs.u16At 8
    entriesTotal := bs.u16At 10
    directorySize := bs.u32At 12
    directoryOffset := bs.u32At 16
    commentLength := bs.u16At 20 }

/-- The bytes of a trailer. -/
def encode (t : Trailer) : Bytes :=
  signature ++ le16 t.disk ++ le16 t.directoryStartDisk ++ le16 t.entriesOnDisk
    ++ le16 t.entriesTotal ++ le32 t.directorySize ++ le32 t.directoryOffset
    ++ le16 t.commentLength

/-- Where the directory ends by the trailer's word. -/
def directoryEnd (t : Trailer) : Nat := t.directoryOffset.toNat + t.directorySize.toNat

end Trailer

end PakIndex
