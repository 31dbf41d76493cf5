/-!
# Bytes and little-endian numbers

* `Bytes`: a finite byte string.
* `littleEndian`, `ofLittleEndian`: numbers of a given width, least significant byte first.
* `u16At`, `u32At`, `u64At`: the field that starts at an offset.
* `le16`, `le32`: the written form of a field.
-/

namespace PakIndex

/-- A byte string. -/
abbrev Bytes := List UInt8

/-- The `width` low bytes of `n`, least significant first. -/
def littleEndian : (width n : Nat) → Bytes
  | 0, _ => []
  | width + 1, n => UInt8.ofNat n :: littleEndian width (n / 256)

/-- The number whose bytes are `bs`, least significant first. -/
def ofLittleEndian : Bytes → Nat
  | [] => 0
  | b :: bs => b.toNat + 256 * ofLittleEndian bs

@[simp] theorem length_littleEndian (width n : Nat) : (littleEndian width n).length = width := by
  induction width generalizing n with
  | zero => rfl
  | succ width ih => simp [littleEndian, ih]

theorem littleEndian_ofLittleEndian (bs : Bytes) :
    littleEndian bs.length (ofLittleEndian bs) = bs := by
  induction bs with
  | nil => rfl
  | cons b bs ih =>
    have hb : b.toNat < 256 := b.toNat_lt
    have hd : (b.toNat + 256 * ofLittleEndian bs) / 256 = ofLittleEndian bs := by omega
    have hm : UInt8.ofNat (b.toNat + 256 * ofLittleEndian bs) = b := by
      apply UInt8.toNat_inj.1
      rw [UInt8.toNat_ofNat']
      omega
    simp only [List.length_cons, littleEndian, ofLittleEndian, hd, hm, ih]

/-! ## Fields -/

/-- The `width` bytes from `start` on. -/
def Bytes.field (bs : Bytes) (start width : Nat) : Bytes := (bs.drop start).take width

/-- The 16-bit field at `start`. -/
def Bytes.u16At (bs : Bytes) (start : Nat) : UInt16 := .ofNat (ofLittleEndian (bs.field start 2))

/-- The 32-bit field at `start`. -/
def Bytes.u32At (bs : Bytes) (start : Nat) : UInt32 := .ofNat (ofLittleEndian (bs.field start 4))

/-- The 64-bit field at `start`. -/
def Bytes.u64At (bs : Bytes) (start : Nat) : UInt64 := .ofNat (ofLittleEndian (bs.field start 8))

/-- The written form of a 16-bit field. -/
def le16 (x : UInt16) : Bytes := littleEndian 2 x.toNat

/-- The written form of a 32-bit field. -/
def le32 (x : UInt32) : Bytes := littleEndian 4 x.toNat

/-- The written form of a 64-bit field. -/
def le64 (x : UInt64) : Bytes := littleEndian 8 x.toNat

end PakIndex
