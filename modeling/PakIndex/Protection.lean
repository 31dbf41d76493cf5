import PakIndex.Error

/-!
# Encryption and signing of an archive

* `Encryption`, `Signing`: the techniques that an archive may declare.
* `Encryption.ofDisk`, `Encryption.ofExtended`, `Signing.ofCode`: where they are declared.
* `diskNumber`: the disk field without the technique in its top bits.
-/

namespace PakIndex

/-- How the headers of an archive are encrypted. -/
inductive Encryption
  | none
  /-- The old stream cipher, declared in the trailer's disk field. -/
  | streamCipher
  /-- The old block cipher, declared in the trailer's disk field. -/
  | tea
  /-- The stream cipher with a key table, declared in the extended header. -/
  | streamCipherKeyTable
  deriving Repr, DecidableEq, Inhabited

namespace Encryption

/-- The technique in the top two bits of a disk field; only the old two are known there. -/
def ofDisk (disk : UInt16) : Encryption :=
  match (disk >>> 14).toNat with
  | 1 => streamCipher
  | 2 => tea
  | _ => none

/-- The technique that an extended header declares. -/
def ofExtended (value : UInt16) : Except Error Encryption :=
  if value = 0 then .ok none
  else if value = 3 then .ok streamCipherKeyTable
  else .error (.unsupportedEncryption value)

/-- The number of a technique. -/
def code : Encryption → UInt16
  | none => 0
  | streamCipher => 1
  | tea => 2
  | streamCipherKeyTable => 3

/-- Whether there is encryption at all. -/
def isEncrypted (e : Encryption) : Bool := e != none

/-- The disk field that declares a technique: the old two have their place there. -/
def toDisk : Encryption → UInt16
  | streamCipher => 0x4000
  | tea => 0x8000
  | _ => 0

end Encryption

/-- A disk field without the technique in its top two bits. -/
def diskNumber (disk : UInt16) : UInt16 := disk &&& 0x3FFF

/-- How the directory of an archive is signed. -/
inductive Signing
  | none
  | directorySigned
  deriving Repr, DecidableEq, Inhabited

namespace Signing

/-- The technique that an extended header declares. -/
def ofCode (value : UInt16) : Except Error Signing :=
  if value = 0 then .ok none
  else if value = 1 then .ok directorySigned
  else .error (.unsupportedSigning value)

/-- The number of a technique. -/
def code : Signing → UInt16
  | none => 0
  | directorySigned => 1

end Signing

end PakIndex
