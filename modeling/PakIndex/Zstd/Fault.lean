/-!
# Faults of compressed frames

* `Zstd.Fault`: why a frame cannot be decoded.
* `Zstd.Fault.message`: its wording.
-/

namespace PakIndex.Zstd

/-- Why a frame cannot be decoded. -/
inductive Fault
  /-- The bytes end before the frame does. -/
  | incomplete
  | unknownFrame
  | unsupportedVersion
  | unsupportedParameter
  | windowTooLarge
  | dictionaryMismatch
  | dictionaryCorrupted
  | wrongLiteralsHeader
  | corrupted
  | wrongChecksum
  /-- There is not enough room for the content. -/
  | destinationTooSmall
  /-- There are fewer bytes than a part has, or more than it may have. -/
  | wrongSize
  /-- Content is stored in a way that an older version did not know yet. -/
  | unknownContent
  deriving Repr, DecidableEq, Inhabited

/-- The wording of a fault. -/
def Fault.message : Fault → String
  | .incomplete => "incomplete frame"
  | .unknownFrame => "Unknown frame descriptor"
  | .unsupportedVersion => "Version not supported"
  | .unsupportedParameter => "Unsupported frame parameter"
  | .windowTooLarge => "Frame requires too much memory for decoding"
  | .dictionaryMismatch => "Dictionary mismatch"
  | .dictionaryCorrupted => "Dictionary is corrupted"
  | .wrongLiteralsHeader => "Header of Literals' block doesn't respect format specification"
  | .corrupted => "Data corruption detected"
  | .wrongChecksum => "Restored data doesn't match checksum"
  | .destinationTooSmall => "Destination buffer is too small"
  | .wrongSize => "Src size is incorrect"
  | .unknownContent => "Error (generic)"

end PakIndex.Zstd
