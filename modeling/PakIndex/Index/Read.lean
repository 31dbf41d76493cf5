import PakIndex.Payload
import PakIndex.Index.Basic

/-!
# Reading through an index

Reading locates payloads where that has not been done, and the index keeps what it learns.

* `Index.resolve`: the entry of a file with its payload located.
* `Index.readStored`, `Index.readContent`: stored bytes and content of a file.
* `Index.validateAll`: checks all payloads.
* `Index.readRequests`, `Index.validateRequests`: what the codec is asked for on the way.
-/

namespace PakIndex.Index

/-- The entry bound to a path with its payload located, and the index that keeps it so. -/
def settle (i : Index) (s : Stream) (path : Path) (e : Entry) : Except Error Entry × Index :=
  match e.dataOffset with
  | some _ => (.ok e, i)
  | none =>
    match i.locator.locate s e (i.tree.nameOf e) with
    | .error err => (.error err, i)
    | .ok offset =>
      (.ok { e with dataOffset := some offset },
        { i with tree := i.tree.modify path fun e => { e with dataOffset := some offset } })

/-- The entry of a file with its payload located. -/
def resolve (i : Index) (s : Stream) (path : String) : Except Error Entry × Index :=
  match i.tree.find? path with
  | none => (.error (.fileNotFound path), i)
  | some e => i.settle s (querySegments path) e

/-- The stored bytes of a file. -/
def readStored (i : Index) (s : Stream) (path : String) : Except Error Bytes × Index :=
  match i.resolve s path with
  | (.error err, i) => (.error err, i)
  | (.ok e, i) => (e.stored s, i)

/-- The content of a file. -/
def readContent (i : Index) (codec : Codec) (s : Stream) (path : String) :
    Except Error Bytes × Index :=
  match i.resolve s path with
  | (.error err, i) => (.error err, i)
  | (.ok e, i) =>
    match i.readStored s path with
    | (.error err, i) => (.error err, i)
    | (.ok stored, i) => (e.decode codec stored, i)

/-- Locates and checks the given entries one after the other, up to the first that fails. -/
def validateEntries (codec : Codec) (s : Stream) :
    List (Path × Entry) → Index → Except Error Unit × Index
  | [], i => (.ok (), i)
  | (path, e) :: rest, i =>
    match i.settle s path e with
    | (.error err, i) => (.error err, i)
    | (.ok e, i) =>
      match e.validate codec s with
      | .error err => (.error err, i)
      | .ok () => validateEntries codec s rest i

/-- Locates and checks the payloads of all entries in the order of listings. -/
def validateAll (i : Index) (codec : Codec) (s : Stream) : Except Error Unit × Index :=
  validateEntries codec s i.tree.toList i

/-! ## Requests -/

/-- What the codec is asked for when a file is read. -/
def readRequests (i : Index) (s : Stream) (path : String) : List CodecRequest :=
  match i.resolve s path with
  | (.error _, _) => []
  | (.ok e, _) => (e.validationRequest s).toList

/-- What the codec is asked for while the given entries are checked, up to the first that fails. -/
def entryRequests (codec : Codec) (s : Stream) : List (Path × Entry) → Index → List CodecRequest
  | [], _ => []
  | (path, e) :: rest, i =>
    match i.settle s path e with
    | (.error _, _) => []
    | (.ok e, i) =>
      (e.validationRequest s).toList ++
        match e.validate codec s with
        | .error _ => []
        | .ok () => entryRequests codec s rest i

/-- What the codec is asked for while all payloads are checked. -/
def validateRequests (i : Index) (codec : Codec) (s : Stream) : List CodecRequest :=
  entryRequests codec s i.tree.toList i

end PakIndex.Index
