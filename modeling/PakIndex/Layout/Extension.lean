import PakIndex.Error

/-!
# Extension headers

The trailer comment may hold up to three headers, each of which starts with its own size.

* `ExtendedHeader`: which encryption and signing techniques the archive uses.
* `SignatureHeader`: the signature of the directory.
* `EncryptionHeader`: initial vector and key table of the cipher.
-/

namespace PakIndex

/-- Checks that `bs` starts with the size of a header and holds all of it. -/
def ExtensionPart.check (part : ExtensionPart) (bs : Bytes) : Except Error Unit :=
  if bs.length < 4 then .error (.layoutCutShort part.size bs.length)
  else if (bs.u32At 0).toNat ≠ part.size then
    .error (.corruptExtendedHeader (.wrongSize part (bs.u32At 0)))
  else if bs.length < part.size then .error (.layoutCutShort part.size bs.length)
  else .ok ()

/-- The size field of a header. -/
def ExtensionPart.sizeField (part : ExtensionPart) : Bytes := littleEndian 4 part.size

/-- The techniques that an archive declares. -/
structure ExtendedHeader where
  encryption : UInt16
  signing : UInt16
  deriving Repr, DecidableEq, Inhabited

namespace ExtendedHeader

/-- The extended header at the start of `bs`. -/
def parse (bs : Bytes) : Except Error ExtendedHeader := do
  ExtensionPart.extended.check bs
  return ⟨bs.u16At 4, bs.u16At 6⟩

/-- The bytes of an extended header. -/
def encode (h : ExtendedHeader) : Bytes :=
  ExtensionPart.extended.sizeField ++ le16 h.encryption ++ le16 h.signing

end ExtendedHeader

/-- The signature of a directory, 256 bytes. -/
structure SignatureHeader where
  signature : Bytes
  deriving Repr, DecidableEq, Inhabited

namespace SignatureHeader

/-- The signature header at the start of `bs`. -/
def parse (bs : Bytes) : Except Error SignatureHeader := do
  ExtensionPart.signature.check bs
  return ⟨bs.field 4 256⟩

/-- The bytes of a signature header. -/
def encode (h : SignatureHeader) : Bytes := ExtensionPart.signature.sizeField ++ h.signature

end SignatureHeader

/-- Initial vector and key table of a cipher: 16 bytes and 16 keys of 16 bytes each. -/
structure EncryptionHeader where
  iv : Bytes
  keys : List Bytes
  deriving Repr, DecidableEq, Inhabited

namespace EncryptionHeader

/-- The encryption header at the start of `bs`. -/
def parse (bs : Bytes) : Except Error EncryptionHeader := do
  ExtensionPart.encryption.check bs
  return ⟨bs.field 4 16, (List.range 16).map fun i => bs.field (20 + 16 * i) 16⟩

/-- The bytes of an encryption header. -/
def encode (h : EncryptionHeader) : Bytes :=
  ExtensionPart.encryption.sizeField ++ h.iv ++ h.keys.flatten

end EncryptionHeader

end PakIndex
