import PakIndex.Text

/-!
# Errors

* `Error`: why an operation on an archive failed.
* `Error.message`, `Error.class`: the wording and the broad category of an error.
* `IoFault`, `ExtensionFault`, `DirectoryFault`, `LocalFault`: the causes behind the errors that
  have several.
-/

namespace PakIndex

/-- Failures of the file under an archive. -/
inductive IoFault
  /-- A read reaches past the end of the data. -/
  | endOfData
  | noSuchFile
  | isFolder
  | notText
  | tooManyEntries
  | commentTooLong
  | other (text : String)
  deriving Repr, DecidableEq, Inhabited

/-- The wording of an I/O failure. -/
def IoFault.message : IoFault → String
  | .endOfData => "failed to fill whole buffer"
  | .noSuchFile => "No such file or directory (os error 2)"
  | .isFolder => "Is a directory (os error 21)"
  | .notText => "stream did not contain valid UTF-8"
  | .tooManyEntries => "too many entries for one trailer"
  | .commentTooLong => "trailer comment is too long"
  | .other text => text

/-- The headers that a trailer comment may hold. -/
inductive ExtensionPart
  | extended
  | signature
  | encryption
  deriving Repr, DecidableEq, Inhabited

/-- The name of an extension header. -/
def ExtensionPart.name : ExtensionPart → String
  | .extended => "extended"
  | .signature => "signature"
  | .encryption => "encryption"

/-- The size that an extension header has and declares. -/
def ExtensionPart.size : ExtensionPart → Nat
  | .extended => 8
  | .signature => 4 + 256
  | .encryption => 4 + 16 + 16 * 16

/-- Faults of the headers in a trailer comment. -/
inductive ExtensionFault
  | wrongSize (part : ExtensionPart) (declared : UInt32)
  | other (text : String)
  deriving Repr, DecidableEq, Inhabited

/-- The wording of an extension header fault. -/
def ExtensionFault.message : ExtensionFault → String
  | .wrongSize part declared =>
    part.name ++ " header declares " ++ toString declared.toNat ++ " bytes, expected "
      ++ toString part.size
  | .other text => text

/-- Faults of the directory. Positions count from the start of the directory. -/
inductive DirectoryFault
  | badSignature (found : UInt32)
  | truncatedRecord (pos : Nat)
  | recordPastEnd (pos stop size : Nat)
  | emptyName (pos : Nat)
  | truncatedBlock
  | blockPastEnd (id : UInt16)
  | other (text : String)
  deriving Repr, DecidableEq, Inhabited

/-- The wording of a directory fault. -/
def DirectoryFault.message : DirectoryFault → String
  | .badSignature found => "bad record signature " ++ hexDigits 8 found.toNat
  | .truncatedRecord pos => "truncated record header at directory offset " ++ toString pos
  | .recordPastEnd pos stop size =>
    "record at directory offset " ++ toString pos ++ " ends at " ++ toString stop
      ++ ", past the directory end " ++ toString size
  | .emptyName pos => "record at directory offset " ++ toString pos ++ " has an empty name"
  | .truncatedBlock => "truncated extra field block header"
  | .blockPastEnd id =>
    "extra field block " ++ hexDigits 4 id.toNat ++ " runs past the extra field"
  | .other text => text

/-- Ways in which a local header contradicts its directory record. -/
inductive LocalFault
  | noSignature
  | descriptor
  | method
  | nameLength
  | name
  | other (text : String)
  deriving Repr, DecidableEq, Inhabited

/-- The wording of a contradiction between a local header and its record. -/
def LocalFault.message : LocalFault → String
  | .noSignature => "local header signature is missing"
  | .descriptor => "sizes or CRC differ from the directory"
  | .method => "compression method differs from the directory"
  | .nameLength => "name length differs from the directory"
  | .name => "name differs from the directory"
  | .other text => text

/-- Why an operation on an archive failed. -/
inductive Error
  | fileTooSmall (size : Nat)
  | fileTooLarge (size : Nat)
  | noTrailerFound
  | commentLengthMismatch (declared : UInt16) (expected : Nat)
  | corruptExtendedHeader (fault : ExtensionFault)
  | unsupportedEncryption (technique : UInt16)
  | unsupportedSigning (technique : UInt16)
  | ambiguousEncryption
  | directoryOutOfRange (offset size : UInt32) (trailerOffset : Nat)
  | unsupportedMultivolume
  | directoryCorrupt (fault : DirectoryFault)
  | unsupportedVersion (version : UInt16)
  | offsetOutOfRange (name : Bytes) (offset : Nat) (limit : UInt32)
  | validationFailed (name : Bytes) (fault : LocalFault)
  | storeSizeMismatch (name : Bytes) (compressed uncompressed : UInt32)
  | codecOutOfMemory
  | codecCorruptStream (text : String)
  | codecUnknown (text : String)
  | unsupportedMethod (code : UInt16)
  | sizeMismatch (expected actual : Nat)
  | checksumMismatch (expected actual : UInt32)
  | fileNotFound (path : String)
  | readOnly
  | unresolved (headerOffset : UInt32)
  | io (fault : IoFault)
  | config (text : String)
  /-- A fixed layout was to be read from fewer bytes than it has: the caller's mistake. -/
  | layoutCutShort (needed available : Nat)
  deriving Repr, DecidableEq, Inhabited

/-- Broad categories of failure. -/
inductive ErrorClass
  /-- The trailer, its headers or the directory are malformed. -/
  | structural
  /-- A directory record disagrees with its local header or with the layout. -/
  | crossValidation
  /-- The file cannot be read or has an unsupported size. -/
  | resource
  /-- Decompression or checksum verification failed. -/
  | diagnostic
  /-- The caller asked for what the index cannot do. -/
  | usage
  deriving Repr, DecidableEq, Inhabited

namespace Error

/-- The category of an error. -/
def «class» : Error → ErrorClass
  | noTrailerFound | commentLengthMismatch .. | corruptExtendedHeader _ | unsupportedEncryption _
  | unsupportedSigning _ | ambiguousEncryption | directoryOutOfRange .. | unsupportedMultivolume
  | directoryCorrupt _ | unsupportedVersion _ => .structural
  | offsetOutOfRange .. | validationFailed .. | storeSizeMismatch .. => .crossValidation
  | fileTooSmall _ | fileTooLarge _ | io _ => .resource
  | codecOutOfMemory | codecCorruptStream _ | codecUnknown _ | unsupportedMethod _
  | sizeMismatch .. | checksumMismatch .. => .diagnostic
  | fileNotFound _ | readOnly | unresolved _ | config _ | layoutCutShort .. => .usage

/-- The wording of an error. -/
def message : Error → String
  | fileTooSmall size =>
    "File is too small to hold a directory trailer (" ++ toString size ++ " bytes)"
  | fileTooLarge size =>
    "File is too large to be opened as an archive (" ++ toString size ++ " bytes, limit is 2 GiB)"
  | noTrailerFound =>
    "No directory trailer found; this is not an archive or its directory is missing"
  | commentLengthMismatch declared expected =>
    "Comment length mismatch: declared " ++ toString declared.toNat ++ ", expected "
      ++ toString expected
  | corruptExtendedHeader fault => "Corrupt extended header: " ++ fault.message
  | unsupportedEncryption technique =>
    "Unsupported header encryption technique: " ++ toString technique.toNat
  | unsupportedSigning technique =>
    "Unsupported header signing technique: " ++ toString technique.toNat
  | ambiguousEncryption =>
    "Encryption technique declared in both the trailer and the extended header"
  | directoryOutOfRange offset size trailerOffset =>
    "Directory range " ++ toString offset.toNat ++ "+" ++ toString size.toNat
      ++ " exceeds the trailer position " ++ toString trailerOffset
  | unsupportedMultivolume => "Multivolume archives are not supported"
  | directoryCorrupt fault => "Directory is corrupt: " ++ fault.message
  | unsupportedVersion version =>
    "Unsupported version needed to extract: " ++ toString version.toNat
  | offsetOutOfRange name offset limit =>
    "Entry " ++ lossyText name ++ " lies outside the archive data region (" ++ toString offset
      ++ " >= " ++ toString limit.toNat ++ ")"
  | validationFailed name fault =>
    "Local header validation failed for " ++ lossyText name ++ ": " ++ fault.message
  | storeSizeMismatch name compressed uncompressed =>
    "Stored entry " ++ lossyText name ++ " declares compressed size " ++ toString compressed.toNat
      ++ " but uncompressed size " ++ toString uncompressed.toNat
  | codecOutOfMemory => "Codec ran out of memory"
  | codecCorruptStream text => "Codec reported a corrupt stream: " ++ text
  | codecUnknown text => "Codec reported an unexpected error: " ++ text
  | unsupportedMethod code => "Unsupported compression method: " ++ toString code.toNat
  | sizeMismatch expected actual =>
    "Decompressed size mismatch: expected " ++ toString expected ++ ", got " ++ toString actual
  | checksumMismatch expected actual =>
    "CRC mismatch: expected " ++ hexDigits 8 expected.toNat ++ ", got "
      ++ hexDigits 8 actual.toNat
  | fileNotFound path => "File not found in archive: " ++ path
  | readOnly => "Archive was opened read-only"
  | unresolved headerOffset =>
    "Data offset of the entry at header offset " ++ toString headerOffset.toNat
      ++ " has not been resolved"
  | io fault => "I/O error: " ++ fault.message
  | config text => "Configuration error: " ++ text
  | layoutCutShort needed available =>
    "A layout of " ++ toString needed ++ " bytes was read from " ++ toString available

end Error

end PakIndex
