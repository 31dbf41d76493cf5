import PakIndex.Index.Build
import PakIndex.Index.Flush

/-!
# Archive files

* `Place`: what is found where an archive is to be opened.
* `Place.opening`: what opening it comes to.
* `Index.create`: the index of a new archive.
* `Place.open`: opening an archive, which may start a new file; `Place.indexAt` is the index and
  `Place.afterOpening` the place that it yields.
-/

namespace PakIndex

/-- What is found at the path of an archive. -/
inductive Place
  /-- Not even the folder that should hold it. -/
  | noFolder
  /-- Nothing, in a folder that is there. -/
  | absent
  | file (content : ByteArray)
  | folder

/-- The content at a place that can be read. -/
def Place.content? : Place → Option ByteArray
  | .file content => some content
  | _ => none

/-- What opening a place comes to. -/
inductive Opening
  | refused (e : Error)
  /-- There is an archive to be read. -/
  | existing (content : ByteArray)
  /-- A new archive is started, in an emptied or a new file. -/
  | fresh

/-- The length that a folder has for those who read it like a file: no offset is larger. -/
def folderLength : Nat := 0x7FFFFFFFFFFFFFFF

/-- The index of a new archive, whose directory will start the file. It waits to be written. -/
def Index.create (options : Options) : Index where
  tree := .empty
  headers := {}
  directoryOffset := 0
  directorySize := 0
  flags := { dirty := true, dontCompact := options.dontCompact }

namespace Place

/-- What opening a place for reading comes to. -/
def readOpening : Place → Opening
  | .noFolder | .absent => .refused (.io .noSuchFile)
  | .folder => .refused (.fileTooLarge folderLength)
  | .file content => .existing content

/-- What opening a place for reading and writing comes to. A new archive is started if there is
none, if the file is empty or if that is asked for. -/
def writeOpening (createNew : Bool) : Place → Opening
  | .noFolder => .refused (.io .noSuchFile)
  | .folder => .refused (.io .isFolder)
  | .absent => .fresh
  | .file content => if createNew || content.size == 0 then .fresh else .existing content

/-- What opening a place comes to. To open for reading only never starts a new archive. -/
def opening (options : Options) (place : Place) : Opening :=
  if options.readOnly then place.readOpening else place.writeOpening options.createNew

/-- The index of the archive at a place, which keeps `path` if that is asked for. -/
def indexAt (options : Options) (codec : Codec) (path : String) (place : Place) :
    Except Error Index := do
  let i ←
    match place.opening options with
    | .refused e => .error e
    | .existing content => Index.build options codec (.ofByteArray content)
    | .fresh => .ok (.create options)
  return { i with path := if options.memorizePath then some path else none }

/-- What is found at a place after it has been opened: only a new archive changes it. -/
def afterOpening (options : Options) (place : Place) : Place :=
  match place.opening options with
  | .fresh => .file .empty
  | _ => place

/-- Opens the archive at a place, which `path` leads to. -/
def «open» (options : Options) (codec : Codec) (path : String) (place : Place) :
    Except Error Index × Place :=
  (place.indexAt options codec path, place.afterOpening options)

/-- What the codec is asked for while the archive at a place is opened. -/
def openRequests (options : Options) (codec : Codec) (place : Place) : List CodecRequest :=
  match place.opening options with
  | .existing content => Index.buildRequests options codec (.ofByteArray content)
  | _ => []

end Place

end PakIndex
