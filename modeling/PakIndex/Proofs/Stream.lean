import PakIndex.Stream
import PakIndex.Proofs.Layout.Field

/-!
# Reads within bounds

* `Stream.read_eq`: what a read comes to.
* `Stream.read_of_le`, `Stream.part_of_le`, `Stream.cut_of_le`, `Bytes.cut_of_le`: what lies within
  the bounds is read.
* `Stream.size_slice`: the size of a part.
-/

namespace PakIndex

theorem Bytes.cut_of_le {bs : Bytes} {pos len : Nat} (h : pos + len ≤ bs.length) :
    bs.cut pos len = .ok (bs.field pos len) := by
  rw [Bytes.cut, if_pos h]

namespace Stream

variable {s : Stream} {pos len : Nat}

theorem read_eq (s : Stream) (pos len : Nat) : s.read pos len =
    if len = 0 ∨ pos + len ≤ s.size then .ok (s.toList.field pos len)
    else .error (.io .endOfData) := by
  rw [read, part]
  split
  · show Except.ok (s.slice pos len).toList = _
    rw [toList_slice, Bytes.field]
  · rfl

theorem read_of_le (h : pos + len ≤ s.size) : s.read pos len = .ok (s.toList.field pos len) :=
  read_eq_ok_iff.mpr ⟨.inr h, rfl⟩

theorem part_of_le (h : pos + len ≤ s.size) : s.part pos len = .ok (s.slice pos len) := by
  rw [part, if_pos (.inr h)]

theorem cut_of_le (h : pos + len ≤ s.size) : s.cut pos len = .ok (s.toList.field pos len) := by
  rw [cut, if_pos h, toList_slice, Bytes.field]

theorem size_slice (h : pos + len ≤ s.size) : (s.slice pos len).size = len := by
  rw [← length_toList, toList_slice, List.length_take, List.length_drop, length_toList]
  omega

theorem length_field (h : pos + len ≤ s.size) : (s.toList.field pos len).length = len := by
  rw [Bytes.length_field, length_toList]
  omega

@[simp] theorem toList_ofByteArray (content : ByteArray) :
    (ofByteArray content).toList = content.data.toList := by
  simp [toList, ofByteArray]

@[simp] theorem size_ofByteArray (content : ByteArray) :
    (ofByteArray content).size = content.size := Nat.zero_add _

@[simp] theorem size_ofBytes (bs : Bytes) : (ofBytes bs).size = bs.length := by
  rw [← length_toList, toList_ofBytes]

end Stream

end PakIndex
