import PakIndex.Stream
import PakIndex.Name.Pool
import PakIndex.Layout.DirectoryRecord
import PakIndex.Layout.ExtraField

/-!
# The directory

* `ListedFile`: what the directory says about one file.
* `Listing`: the files of a directory in order, and how many folder markers it has.
* `Listing.parse`: the listing of a directory, whose names go into a pool.
-/

namespace PakIndex

/-- The highest version needed for extraction, in the low byte of its field, that is understood. -/
def maxVersionNeeded : UInt16 := 20

/-- What the directory says about one file. -/
structure ListedFile where
  record : DirectoryRecord
  /-- The normalized name, in the pool of the listing. -/
  name : NameRef
  mtime : Option UInt64
  deriving Repr, DecidableEq, Inhabited

/-- The files of a directory in order. Records whose name ends in a separator only mark a folder
and are counted. -/
structure Listing where
  names : NamePool := .empty
  files : Array ListedFile := #[]
  markers : Nat := 0
  deriving Inhabited

namespace Listing

/-- The listing with one more record, its name and its extra field. -/
def add (l : Listing) (pos : Nat) (record : DirectoryRecord) (name extra : Bytes) :
    Except Error Listing :=
  match name.getLast? with
  | none => .error (.directoryCorrupt (.emptyName pos))
  | some last =>
    if isSeparator last then .ok { l with markers := l.markers + 1 }
    else
      match ExtraBlock.parseAll extra with
      | .error e => .error e
      | .ok blocks =>
        let ⟨names, files, markers⟩ := l
        let (ref, names) := names.push name
        .ok ⟨names, files.push ⟨record, ref, ExtraBlock.modificationTime blocks⟩, markers⟩

/-- The listing `l` with the record of `buffer` at `pos`, whose fixed part is given. -/
def addAt (buffer : Stream) (pos : Nat) (record : DirectoryRecord) (l : Listing) :
    Except Error Listing := do
  let nameStart := pos + DirectoryRecord.fixedSize
  let name ← buffer.cut nameStart record.nameLength.toNat
  let extra ← buffer.cut (nameStart + record.nameLength.toNat) record.extraLength.toNat
  l.add pos record name extra

/-- The fixed part of the record of `buffer` at `pos`, once all of the record is seen to be there.
-/
def recordAt (buffer : Stream) (pos : Nat) : Except Error DirectoryRecord := do
  if buffer.size - pos < DirectoryRecord.fixedSize then
    throw (.directoryCorrupt (.truncatedRecord pos))
  let record ← DirectoryRecord.parse (← buffer.cut pos DirectoryRecord.fixedSize)
  if record.versionNeeded &&& 0xFF > maxVersionNeeded then
    throw (.unsupportedVersion record.versionNeeded)
  let stop := pos + record.totalSize
  if stop > buffer.size then throw (.directoryCorrupt (.recordPastEnd pos stop buffer.size))
  return record

/-- The listing `l` with the records of `buffer` from `pos` on. -/
def parseFrom (buffer : Stream) (pos : Nat) (l : Listing) : Except Error Listing :=
  if _h : pos < buffer.size then
    match recordAt buffer pos with
    | .error e => .error e
    | .ok record =>
      match addAt buffer pos record l with
      | .error e => .error e
      | .ok l => parseFrom buffer (pos + record.totalSize) l
  else .ok l
termination_by buffer.size - pos
decreasing_by
  simp only [DirectoryRecord.totalSize, DirectoryRecord.fixedSize]
  omega

/-- The listing of the directory that `buffer` holds exactly. -/
def parse (buffer : Stream) : Except Error Listing := parseFrom buffer 0 {}

end Listing

end PakIndex
