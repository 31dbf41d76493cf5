import PakIndex.Protection
import PakIndex.Layout.Extension
import PakIndex.Trailer.Search

/-!
# What the trailer says about an archive

* `Headers`: techniques, extension headers and comment of an archive.
* `Headers.ofComment`: the headers that a comment holds.
* `Headers.decode`: the headers of a located trailer, once the trailer itself is consistent.
* `Headers.dropSignature`: the headers without the directory signature.
-/

namespace PakIndex

/-- What the trailer and its comment say about an archive. -/
structure Headers where
  encryption : Encryption := .none
  signing : Signing := .none
  extended : Option ExtendedHeader := none
  signature : Option SignatureHeader := none
  encryptionHeader : Option EncryptionHeader := none
  comment : Bytes := []
  deriving Repr, DecidableEq, Inhabited

/-- The trailer without the technique that its disk field may declare. -/
def Trailer.plain (t : Trailer) : Trailer := { t with disk := diskNumber t.disk }

/-- The located trailer without the technique that its disk field may declare. -/
def LocatedTrailer.plain (t : LocatedTrailer) : LocatedTrailer :=
  { t with record := t.record.plain }

/-- The size of the header that a signing technique asks for. -/
def Signing.headerSize (s : Signing) : Nat :=
  if s = .directorySigned then ExtensionPart.signature.size else 0

/-- The size of the header that an encryption technique asks for. -/
def Encryption.headerSize (e : Encryption) : Nat :=
  if e.isEncrypted then ExtensionPart.encryption.size else 0

/-- The header at the start of `bs` that a signing technique asks for. -/
def Signing.headerIn (s : Signing) (bs : Bytes) : Except Error (Option SignatureHeader) :=
  if s = .directorySigned then (SignatureHeader.parse bs).map some else .ok Option.none

/-- The header at the start of `bs` that an encryption technique asks for. -/
def Encryption.headerIn (e : Encryption) (bs : Bytes) : Except Error (Option EncryptionHeader) :=
  if e = .streamCipherKeyTable then (EncryptionHeader.parse bs).map some else .ok Option.none

namespace Headers

/-- The length of a comment that holds the headers which the techniques ask for. -/
def commentLength (encryption : Encryption) (signing : Signing) : Nat :=
  ExtensionPart.extended.size + signing.headerSize + encryption.headerSize

/-- The headers in a comment that starts with an extended header: it decides on the techniques, and
the comment holds exactly the headers that they ask for. -/
def ofExtended (extended : ExtendedHeader) (comment : Bytes) : Except Error Headers := do
  let encryption ← Encryption.ofExtended extended.encryption
  let signing ← Signing.ofCode extended.signing
  let expected := commentLength encryption signing
  if comment.length ≠ expected then
    throw (.commentLengthMismatch (.ofNat comment.length) expected)
  let rest := comment.drop ExtensionPart.extended.size
  let signature ← signing.headerIn rest
  let encryptionHeader ← encryption.headerIn (rest.drop signing.headerSize)
  return { encryption, signing, extended := some extended, signature, encryptionHeader, comment }

/-- The headers in a comment, where the trailer's disk field declares `legacy`. A comment too short
for an extended header is plain text. -/
def ofComment (legacy : Encryption) (comment : Bytes) : Except Error Headers := do
  if comment.length < ExtensionPart.extended.size then
    return { encryption := legacy, comment }
  let extended ← ExtendedHeader.parse comment
  if extended.encryption ≠ 0 ∧ legacy.isEncrypted then throw .ambiguousEncryption
  ofExtended extended comment

/-- The headers of a located trailer. The technique in the disk field does not count as a volume
number, and the range of the directory is checked last. -/
def decode (s : Stream) (located : LocatedTrailer) : Except Error Headers := do
  let record := located.record.plain
  let comment ← s.read (located.offset + Trailer.fixedSize) record.commentLength.toNat
  let headers ← ofComment (.ofDisk located.record.disk) comment
  if record.disk ≠ 0 ∨ record.directoryStartDisk ≠ 0 ∨ record.entriesOnDisk ≠ record.entriesTotal
  then throw .unsupportedMultivolume
  if record.directoryEnd > located.offset then
    throw (.directoryOutOfRange record.directoryOffset record.directorySize located.offset)
  return headers

/-- The headers without the directory signature, which cannot cover a rewritten directory. The
extended header stays, and so does an encryption header in the comment. -/
def dropSignature (h : Headers) : Headers :=
  match h.signing, h.extended with
  | .directorySigned, some extended =>
    let extended := { extended with signing := Signing.none.code }
    { h with
      signing := .none
      extended := some extended
      signature := none
      comment := extended.encode ++
        h.comment.drop (ExtensionPart.extended.size + ExtensionPart.signature.size) }
  | _, _ => h

end Headers

end PakIndex
