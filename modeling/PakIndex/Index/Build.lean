import PakIndex.Options
import PakIndex.Payload
import PakIndex.Index.Basic

/-!
# Building an index

* `Index.accept`: the entry of a listed file, checked as thoroughly as asked for.
* `Index.acceptAll`: the tree of all listed files; of two files at one path the later one stays.
* `Index.build`: the index of an archive.
-/

namespace PakIndex.Index

/-- How files are accepted to an index. -/
structure Policy where
  init : Thoroughness
  locator : Locator

namespace Policy

/-- Whether payloads are located at once. The local headers of encrypted archives are not looked at,
so that this costs nothing there. -/
def isEager (a : Policy) : Bool := a.locator.encryption.isEncrypted || a.init.atLeastFull

end Policy

/-- The entry of a listed file with its payload located if it is not empty and files are accepted
eagerly. -/
def place (a : Policy) (s : Stream) (names : NamePool) (f : ListedFile) : Except Error Entry := do
  let e := Entry.ofListed f
  let name := names.get e.name
  a.locator.check e name
  if a.isEager ∧ e.compressedSize ≠ 0 then
    return { e with dataOffset := some (← a.locator.locate s e name) }
  return e

/-- Whether the payload of an accepted entry is to be validated. -/
def validates (a : Policy) (e : Entry) : Bool :=
  a.init == .validate && e.compressedSize != 0

/-- The entry of a listed file, checked as thoroughly as asked for. -/
def accept (a : Policy) (codec : Codec) (s : Stream) (names : NamePool) (f : ListedFile) :
    Except Error Entry := do
  let e ← place a s names f
  if validates a e then e.validate codec s
  return e

/-- The tree with the entries of more listed files; of two files at one path the later one stays. -/
def acceptAll (a : Policy) (codec : Codec) (s : Stream) : List ListedFile → Tree → Except Error Tree
  | [], t => .ok t
  | f :: rest, t =>
    match accept a codec s t.names f with
    | .error e => .error e
    | .ok e => acceptAll a codec s rest (t.insert e).2

/-- The parts of an archive that say what is in it: the headers, the trailer and the listing of the
directory. -/
def survey (s : Stream) : Except Error (Headers × Trailer × Listing) := do
  let located ← PakIndex.locate s
  let headers ← Headers.decode s located
  let record := located.record
  let directory ← s.part record.directoryOffset.toNat record.directorySize.toNat
  return (headers, record, ← Listing.parse directory)

/-- The index of an archive. -/
def build (options : Options) (codec : Codec) (s : Stream) : Except Error Index := do
  let (headers, record, listing) ← survey s
  let policy : Policy := ⟨options.init, headers.encryption, record.directoryOffset⟩
  let tree ← acceptAll policy codec s listing.files.toList (.ofNames listing.names)
  return {
    tree := tree.refreshSlots record.directoryOffset
    headers
    directoryOffset := record.directoryOffset
    directorySize := record.directorySize
    flags := { readOnly := options.readOnly, dontCompact := options.dontCompact } }

/-- What the codec is asked for while listed files are accepted, up to the first that fails. -/
def acceptRequests (a : Policy) (codec : Codec) (s : Stream) (names : NamePool) :
    List ListedFile → List CodecRequest
  | [] => []
  | f :: rest =>
    match place a s names f with
    | .error _ => []
    | .ok e =>
      let request := if validates a e then e.validationRequest s else none
      request.toList ++
        match accept a codec s names f with
        | .error _ => []
        | .ok _ => acceptRequests a codec s names rest

/-- What the codec is asked for while an index is built. -/
def buildRequests (options : Options) (codec : Codec) (s : Stream) : List CodecRequest :=
  match survey s with
  | .error _ => []
  | .ok (headers, record, listing) =>
    acceptRequests ⟨options.init, headers.encryption, record.directoryOffset⟩ codec s
      listing.names listing.files.toList

end PakIndex.Index
