import PakIndex.Error
import PakIndex.Method
import PakIndex.Deflate.Inflate
import PakIndex.Zstd.Collect

/-!
# Codecs

* `Codec`: what turns stored bytes into content.
* `CodecFault`: why a codec fails.
* `Codec.standard`: the codec for deflated and compressed-frame payloads.
-/

namespace PakIndex

/-- Why a codec fails. -/
inductive CodecFault
  | outOfMemory
  | corruptStream (text : String)
  | unknown (text : String)
  | unsupportedMethod (code : UInt16)
  deriving Repr, DecidableEq, Inhabited

/-- The error that a codec's failure is to the user of an archive. -/
def CodecFault.toError : CodecFault → Error
  | .outOfMemory => .codecOutOfMemory
  | .corruptStream text => .codecCorruptStream text
  | .unknown text => .codecUnknown text
  | .unsupportedMethod code => .unsupportedMethod code

/-- What turns bytes stored by a method into content. It is told which size is expected and yields
at most one byte more, which shows that the content is too long. -/
abbrev Codec := Method → (stored : Bytes) → (expected : Nat) → Except CodecFault Bytes

/-- The failure of a codec whose deflate stream cannot be decoded. -/
def Deflate.Fault.toCodecFault : Deflate.Fault → CodecFault
  | .corrupt => .corruptStream "corrupt deflate stream"
  | .incomplete => .corruptStream "incomplete deflate stream"

/-- The failure of a codec whose frames cannot be decoded. -/
def Zstd.Fault.toCodecFault : Zstd.Fault → CodecFault
  | .incomplete => .corruptStream Zstd.Fault.incomplete.message
  | fault => .unknown fault.message

/-- The codec for deflate streams and compressed frames. -/
def Codec.standard : Codec := fun method stored expected =>
  match method with
  | .deflate => (Deflate.inflate (expected + 1) stored).mapError Deflate.Fault.toCodecFault
  | .zstd => (Zstd.decompress expected stored).mapError Zstd.Fault.toCodecFault
  | method => .error (.unsupportedMethod method.code)

end PakIndex
