import PakIndex.Entry
import PakIndex.Protection
import PakIndex.Layout.LocalHeader

/-!
# The place of a payload

* `Locator`: what decides where payloads lie and how far they may reach.
* `Locator.check`: the conditions on every entry.
* `Locator.locate`: the offset of a payload.
-/

namespace PakIndex

/-- What decides where the payloads of an archive lie. -/
structure Locator where
  encryption : Encryption
  directoryOffset : UInt32
  deriving Repr, DecidableEq, Inhabited

namespace Locator

/-- The conditions on every entry, whether or not its payload is located: its header lies before
the directory, and a payload without compression has one size. -/
def check (l : Locator) (e : Entry) (name : Bytes) : Except Error Unit :=
  if e.headerOffset > l.directoryOffset then
    .error (.offsetOutOfRange name e.headerOffset.toNat l.directoryOffset)
  else if e.method.isStored ∧ e.descriptor.compressedSize ≠ e.descriptor.uncompressedSize then
    .error (.storeSizeMismatch name e.descriptor.compressedSize e.descriptor.uncompressedSize)
  else .ok ()

/-- The offset of the payload behind the local header `bs` of an entry, where `bs` has room for
header and name. The header must repeat descriptor, method and name of the entry. -/
def dataOffsetIn (bs : Bytes) (e : Entry) (name : Bytes) : Except Error Nat := do
  let some header ← LocalHeader.parse bs | throw (.validationFailed name .noSignature)
  if header.descriptor ≠ e.descriptor then throw (.validationFailed name .descriptor)
  if header.method ≠ e.method then throw (.validationFailed name .method)
  if header.nameLength.toNat ≠ name.length then throw (.validationFailed name .nameLength)
  if ¬ namesMatch (bs.drop LocalHeader.fixedSize) name then throw (.validationFailed name .name)
  return e.headerOffset.toNat + LocalHeader.fixedSize + header.nameLength.toNat
    + header.extraLength.toNat

/-- The offset of the payload of an entry before its range is checked. The local headers of an
encrypted archive cannot be read, so that the directory is trusted there. -/
def expectedOffset (l : Locator) (s : Stream) (e : Entry) (name : Bytes) : Except Error Nat := do
  if l.encryption.isEncrypted then
    return e.headerOffset.toNat + LocalHeader.fixedSize + name.length
  dataOffsetIn (← s.read e.headerOffset.toNat (LocalHeader.fixedSize + name.length)) e name

/-- Whether a payload of `size` bytes at `offset` lies before the directory. An empty one may end
where the directory starts. -/
def inRange (l : Locator) (offset size : Nat) : Bool :=
  if size = 0 then offset ≤ l.directoryOffset.toNat
  else offset < l.directoryOffset.toNat && offset + size ≤ l.directoryOffset.toNat

/-- The offset of the payload of an entry with the given normalized name. -/
def locate (l : Locator) (s : Stream) (e : Entry) (name : Bytes) : Except Error UInt32 := do
  let offset ← l.expectedOffset s e name
  if ¬ l.inRange offset e.compressedSize then
    throw (.offsetOutOfRange name offset l.directoryOffset)
  return .ofNat offset

end Locator

end PakIndex
