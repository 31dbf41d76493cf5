import PakIndex.Codec
import PakIndex.Entry
import PakIndex.Checksum.Crc32

/-!
# Payloads

* `Entry.verify`: whether a content has the size and checksum of an entry.
* `Entry.decode`: the content of an entry whose stored bytes are given.
* `Entry.validate`: reads, decodes and verifies the payload of an entry.
* `Entry.request`, `Entry.validationRequest`: what a codec is asked for on the way.
-/

namespace PakIndex

namespace Entry

/-- `content`, if it has the size and checksum of the entry. -/
def verify (e : Entry) (content : Bytes) : Except Error Bytes :=
  if content.length ≠ e.uncompressedSize then
    .error (.sizeMismatch e.uncompressedSize content.length)
  else if crc32 content ≠ e.descriptor.crc32 then
    .error (.checksumMismatch e.descriptor.crc32 (crc32 content))
  else .ok content

/-- The content of an entry with the given stored bytes. -/
def decode (codec : Codec) (e : Entry) (stored : Bytes) : Except Error Bytes := do
  let content ← if e.method = .store then pure stored
    else (codec e.method stored e.uncompressedSize).mapError CodecFault.toError
  e.verify content

/-- The stored bytes of an entry whose payload is located. -/
def stored (s : Stream) (e : Entry) : Except Error Bytes :=
  match e.dataOffset with
  | none => .error (.unresolved e.headerOffset)
  | some offset => s.read offset.toNat e.compressedSize

/-- Checks the payload of an entry. -/
def validate (codec : Codec) (s : Stream) (e : Entry) : Except Error Unit := do
  let stored ← e.stored s
  discard <| e.decode codec stored

end Entry

/-! ## Requests -/

/-- What a codec is asked for: the method, the number of stored bytes and the expected size. -/
structure CodecRequest where
  method : Method
  stored : Nat
  expected : Nat
  deriving Repr, DecidableEq, Inhabited

namespace Entry

/-- What the codec is asked for when an entry with the given stored bytes is decoded. -/
def request (e : Entry) (stored : Bytes) : Option CodecRequest :=
  if e.method = .store then none else some ⟨e.method, stored.length, e.uncompressedSize⟩

/-- What the codec is asked for when an entry is validated. -/
def validationRequest (s : Stream) (e : Entry) : Option CodecRequest :=
  match e.stored s with
  | .error _ => none
  | .ok stored => e.request stored

end Entry

end PakIndex
