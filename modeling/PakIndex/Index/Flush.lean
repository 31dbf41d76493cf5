import PakIndex.Cursor
import PakIndex.Index.Basic

/-!
# Writing the directory back

* `Index.directory`: the bytes of the directory that describes the entries.
* `Index.closing`: the trailer that closes the archive.
* `Index.flush`: the file after its directory and trailer have been rewritten.
-/

namespace PakIndex.Index

/-- The bytes of the directory: the records of all entries in the order of their headers. -/
def directory (i : Index) : Bytes :=
  i.tree.byHeader.flatMap fun (_, e) => e.toRecord.encode (i.tree.nameOf e)

/-- The trailer of an archive with the given number of entries and directory size. An old encryption
technique is declared in the disk field unless an extended header declares one. -/
def closing (i : Index) (count : UInt16) (directorySize : UInt32) : Trailer :=
  let commentLength := UInt16.ofNat i.headers.comment.length
  { Trailer.singleVolume count i.directoryOffset directorySize commentLength with
    disk := if i.headers.extended.isNone then i.headers.encryption.toDisk else 0 }

/-- The file after the directory has been rewritten where it starts. Trailer and comment follow it,
and the file ends there. A directory signature is dropped, since it cannot cover the new directory.
An index without changes leaves the file as it is. -/
def flush (i : Index) (content : ByteArray) : Except Error Unit × Index × ByteArray :=
  if i.flags.readOnly then (.error .readOnly, i, content)
  else if ¬ i.flags.dirty then (.ok (), i, content)
  else
    let i := { i with headers := i.headers.dropSignature }
    let directory := i.directory
    let directorySize := UInt32.ofNat directory.length
    let count := i.tree.entries.length
    if 0xFFFF < count then (.error (.io .tooManyEntries), i, content)
    else if 0xFFFF < i.headers.comment.length then (.error (.io .commentTooLong), i, content)
    else
      let trailer := i.closing (.ofNat count) directorySize
      let written := directory ++ trailer.encode ++ i.headers.comment
      let start := i.directoryOffset.toNat
      let content := resize (overwrite content start written) (start + written.length)
      (.ok (), { i with directorySize, flags.dirty := false }, content)

end PakIndex.Index
