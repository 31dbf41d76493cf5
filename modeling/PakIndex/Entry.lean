import PakIndex.Directory

/-!
# Entries

* `Entry`: a file of the index, with the place of its payload once that is known.
* `Entry.ofListed`, `Entry.toRecord`: an entry read from and written to the directory.
-/

namespace PakIndex

/-- A file of the index. -/
structure Entry where
  /-- The normalized full path, in the pool of the tree. -/
  name : NameRef
  method : Method
  descriptor : Descriptor
  headerOffset : UInt32
  /-- The offset of the payload, once it is known. -/
  dataOffset : Option UInt32
  /-- The offset of whatever follows the file in the archive. -/
  slotEnd : UInt32
  versionNeeded : UInt16
  flags : UInt16
  time : UInt16
  date : UInt16
  attributes : UInt32
  mtime : Option UInt64
  deriving Repr, DecidableEq, Inhabited

namespace Entry

/-- The entry of a listed file; its payload is not located yet. -/
def ofListed (f : ListedFile) : Entry where
  name := f.name
  method := f.record.method
  descriptor := f.record.descriptor
  headerOffset := f.record.headerOffset
  dataOffset := none
  slotEnd := 0
  versionNeeded := f.record.versionNeeded
  flags := f.record.flags
  time := f.record.time
  date := f.record.date
  attributes := f.record.attributes
  mtime := f.mtime

/-- The record that describes an entry in a rewritten directory. -/
def toRecord (e : Entry) : DirectoryRecord where
  versionMadeBy := 20
  versionNeeded := e.versionNeeded
  flags := e.flags
  method := e.method
  time := e.time
  date := e.date
  descriptor := e.descriptor
  nameLength := .ofNat e.name.len.toNat
  extraLength := 0
  commentLength := 0
  diskNumberStart := 0
  internalAttributes := 0
  attributes := e.attributes
  headerOffset := e.headerOffset

/-- The number of stored bytes. -/
def compressedSize (e : Entry) : Nat := e.descriptor.compressedSize.toNat

/-- The number of bytes of the content. -/
def uncompressedSize (e : Entry) : Nat := e.descriptor.uncompressedSize.toNat

/-- Whether the place of the payload is known. -/
def isResolved (e : Entry) : Bool := e.dataOffset.isSome

/-- Where the payload ends, once its place is known. -/
def endOffset (e : Entry) : Option Nat :=
  e.dataOffset.map fun start => start.toNat + e.compressedSize

end Entry

end PakIndex
