import PakIndex.Bytes
import Mathlib.Tactic

/-!
# Fields of written bytes

* `Bytes.field_skip`, `Bytes.field_keep`, `Bytes.field_take`: a field of a concatenation lies in one
  of its parts. `Bytes.field_of_take`: a field is one of the first bytes that have room for it.
* `Bytes.u16At_skip`, `Bytes.u16At_le16`, and so for 32 bits: a written number is read back from
  where it was written.
* `Bytes.le16_u16At`, and so for 32 and 64 bits: a number that was read is written as it stood.
-/

namespace PakIndex

variable {a b : Bytes} {start width : Nat}

@[simp] theorem length_le16 (x : UInt16) : (le16 x).length = 2 := length_littleEndian 2 _

@[simp] theorem length_le32 (x : UInt32) : (le32 x).length = 4 := length_littleEndian 4 _

@[simp] theorem length_le64 (x : UInt64) : (le64 x).length = 8 := length_littleEndian 8 _

theorem ofLittleEndian_littleEndian (width n : Nat) :
    ofLittleEndian (littleEndian width n) = n % 256 ^ width := by
  induction width generalizing n with
  | zero => simp [littleEndian, ofLittleEndian, Nat.mod_one]
  | succ width ih =>
    have hb : (UInt8.ofNat n).toNat = n % 256 := UInt8.toNat_ofNat'
    rw [littleEndian, ofLittleEndian, ih, hb, Nat.pow_succ, Nat.mul_comm (256 ^ width),
      Nat.mod_mul]

theorem ofLittleEndian_lt (bs : Bytes) : ofLittleEndian bs < 256 ^ bs.length := by
  induction bs with
  | nil => exact Nat.one_pos
  | cons b bs ih =>
    have hb : b.toNat < 256 := b.toNat_lt
    rw [ofLittleEndian, List.length_cons, Nat.pow_succ]
    omega

theorem ofNat_le16 (x : UInt16) : UInt16.ofNat (ofLittleEndian (le16 x)) = x := by
  have h : x.toNat < 256 ^ 2 := x.toNat_lt
  rw [le16, ofLittleEndian_littleEndian, Nat.mod_eq_of_lt h, UInt16.ofNat_toNat]

theorem ofNat_le32 (x : UInt32) : UInt32.ofNat (ofLittleEndian (le32 x)) = x := by
  have h : x.toNat < 256 ^ 4 := x.toNat_lt
  rw [le32, ofLittleEndian_littleEndian, Nat.mod_eq_of_lt h, UInt32.ofNat_toNat]

theorem ofNat_le64 (x : UInt64) : UInt64.ofNat (ofLittleEndian (le64 x)) = x := by
  have h : x.toNat < 256 ^ 8 := x.toNat_lt
  rw [le64, ofLittleEndian_littleEndian, Nat.mod_eq_of_lt h, UInt64.ofNat_toNat]

namespace Bytes

theorem length_field : (Bytes.field a start width).length = min width (a.length - start) := by
  rw [Bytes.field, List.length_take, List.length_drop]

/-! ## Where a field lies -/

theorem field_skip (h : a.length ≤ start) :
    Bytes.field (a ++ b) start width = Bytes.field b (start - a.length) width := by
  rw [Bytes.field, List.drop_append, List.drop_eq_nil_of_le h, List.nil_append, Bytes.field]

theorem field_take (h : a.length = width) : Bytes.field (a ++ b) 0 width = a := by
  rw [Bytes.field, List.drop_zero, List.take_left' h]

theorem field_keep (h : start + width ≤ a.length) :
    Bytes.field (a ++ b) start width = Bytes.field a start width := by
  rw [Bytes.field, List.drop_append_of_le_length (by omega),
    List.take_append_of_le_length (by rw [List.length_drop]; omega), Bytes.field]

theorem getElem?_field {i : Nat} (h : i < width) :
    (Bytes.field a start width)[i]? = a[start + i]? := by
  rw [Bytes.field, List.getElem?_take_of_lt h, List.getElem?_drop]

theorem drop_field (i : Nat) :
    (Bytes.field a start width).drop i = Bytes.field a (start + i) (width - i) := by
  rw [Bytes.field, List.drop_take, List.drop_drop, Bytes.field]

theorem field_drop (a : Bytes) (pos start width : Nat) :
    Bytes.field (a.drop pos) start width = Bytes.field a (pos + start) width := by
  rw [Bytes.field, List.drop_drop, Bytes.field]

theorem field_field {i n : Nat} (h : i + n ≤ width) :
    Bytes.field (Bytes.field a start width) i n = Bytes.field a (start + i) n := by
  rw [Bytes.field, Bytes.field, Bytes.field, List.drop_take, List.drop_drop, List.take_take,
    min_eq_left (by omega)]

theorem field_of_take {n : Nat} (h : b.take n = a.take n) (hend : start + width ≤ n) :
    Bytes.field b start width = Bytes.field a start width := by
  have hcut : ∀ bs : Bytes, bs.field start width = Bytes.field (bs.take n) start width := by
    intro bs
    rw [Bytes.field, Bytes.field, List.drop_take, List.take_take, min_eq_left (by omega)]
  rw [hcut b, h, ← hcut]

theorem u16At_skip (h : a.length ≤ start) :
    Bytes.u16At (a ++ b) start = Bytes.u16At b (start - a.length) := by
  rw [Bytes.u16At, field_skip h, Bytes.u16At]

theorem u32At_skip (h : a.length ≤ start) :
    Bytes.u32At (a ++ b) start = Bytes.u32At b (start - a.length) := by
  rw [Bytes.u32At, field_skip h, Bytes.u32At]

@[simp] theorem u16At_le16 (x : UInt16) (b : Bytes) : Bytes.u16At (le16 x ++ b) 0 = x := by
  rw [Bytes.u16At, field_take (length_le16 x), ofNat_le16]

@[simp] theorem u32At_le32 (x : UInt32) (b : Bytes) : Bytes.u32At (le32 x ++ b) 0 = x := by
  rw [Bytes.u32At, field_take (length_le32 x), ofNat_le32]

/-! ## Written as they stood -/

theorem field_append (a : Bytes) (start m n : Nat) :
    Bytes.field a start m ++ Bytes.field a (start + m) n = Bytes.field a start (m + n) := by
  rw [Bytes.field, Bytes.field, Bytes.field, ← List.drop_drop, ← List.take_add]

theorem field_zero_append (a : Bytes) (m n : Nat) :
    Bytes.field a 0 m ++ Bytes.field a m n = Bytes.field a 0 (m + n) := by
  rw [← field_append, Nat.zero_add]

theorem ofLittleEndian_field (h : start + width ≤ a.length) :
    ofLittleEndian (Bytes.field a start width) < 256 ^ width ∧
      littleEndian width (ofLittleEndian (Bytes.field a start width)) =
        Bytes.field a start width := by
  have hlen : (Bytes.field a start width).length = width := by
    rw [length_field]
    omega
  have hlt := ofLittleEndian_lt (Bytes.field a start width)
  have hback := littleEndian_ofLittleEndian (Bytes.field a start width)
  rw [hlen] at hlt hback
  exact ⟨hlt, hback⟩

theorem le16_u16At (h : start + 2 ≤ a.length) :
    le16 (Bytes.u16At a start) = Bytes.field a start 2 := by
  obtain ⟨hlt, hback⟩ := ofLittleEndian_field h
  rw [le16, Bytes.u16At, UInt16.toNat_ofNat_of_lt' hlt, hback]

theorem le32_u32At (h : start + 4 ≤ a.length) :
    le32 (Bytes.u32At a start) = Bytes.field a start 4 := by
  obtain ⟨hlt, hback⟩ := ofLittleEndian_field h
  rw [le32, Bytes.u32At, UInt32.toNat_ofNat_of_lt' hlt, hback]

theorem le64_u64At (h : start + 8 ≤ a.length) :
    le64 (Bytes.u64At a start) = Bytes.field a start 8 := by
  obtain ⟨hlt, hback⟩ := ofLittleEndian_field h
  rw [le64, Bytes.u64At, UInt64.toNat_ofNat_of_lt' hlt, hback]

end Bytes

end PakIndex
