import PakIndex.Error

/-!
# Byte streams

* `Stream`: a hole of zero bytes followed by bytes held in memory. A hole takes no room, so a
  stream may be far larger than memory.
* `Stream.toList`: the bytes of a stream, the view that its laws speak of.
* `Stream.slice`: the part of a stream in a range.
* `Stream.read`: the bytes in a range, an error where the stream ends before it.
* `Bytes.cut`, `Stream.cut`: the bytes in a range that the caller has seen to be there.
-/

namespace PakIndex

/-- The `len` bytes of `bs` from `pos` on. To ask for bytes that are not there is the caller's
mistake. -/
def Bytes.cut (bs : Bytes) (pos len : Nat) : Except Error Bytes :=
  if pos + len ≤ bs.length then .ok (bs.field pos len)
  else .error (.layoutCutShort (pos + len) bs.length)

/-- A run of `hole` zero bytes followed by `tail`. -/
structure Stream where
  hole : Nat
  tail : ByteArray

namespace Stream

/-- The stream without a hole. -/
def ofByteArray (content : ByteArray) : Stream := ⟨0, content⟩

/-- The stream of a byte string. -/
def ofBytes (bs : Bytes) : Stream := ofByteArray bs.toByteArray

/-- The number of bytes. -/
def size (s : Stream) : Nat := s.hole + s.tail.size

/-- The bytes of a stream. -/
def toList (s : Stream) : Bytes := List.replicate s.hole 0 ++ s.tail.data.toList

/-- The part of `s` in `[pos, pos + len)`, cut off where `s` ends. -/
def slice (s : Stream) (pos len : Nat) : Stream where
  hole := min (pos + len) s.hole - pos
  tail := s.tail.extract (pos - s.hole) (pos + len - s.hole)

/-- The part of `s` in `[pos, pos + len)`. Nothing can be had from anywhere. -/
def part (s : Stream) (pos len : Nat) : Except Error Stream :=
  if len = 0 ∨ pos + len ≤ s.size then .ok (s.slice pos len) else .error (.io .endOfData)

/-- The bytes of `s` in `[pos, pos + len)`. -/
def read (s : Stream) (pos len : Nat) : Except Error Bytes := return (← s.part pos len).toList

/-- The bytes of `s` in `[pos, pos + len)`. To ask for bytes that are not there is the caller's
mistake. -/
def cut (s : Stream) (pos len : Nat) : Except Error Bytes :=
  if pos + len ≤ s.size then .ok (s.slice pos len).toList
  else .error (.layoutCutShort (pos + len) s.size)

/-! ## The view -/

@[simp] theorem length_toList (s : Stream) : s.toList.length = s.size := by
  rw [toList, List.length_append, List.length_replicate, Array.length_toList, size,
    ByteArray.size_data]

@[simp] theorem toList_ofBytes (bs : Bytes) : (ofBytes bs).toList = bs := by
  simp [toList, ofBytes, ofByteArray]

theorem toList_slice (s : Stream) (pos len : Nat) :
    (s.slice pos len).toList = (s.toList.drop pos).take len := by
  have h1 : min (pos + len) s.hole - pos = min len (s.hole - pos) := by omega
  have h2 : pos + len - s.hole - (pos - s.hole) = len - (s.hole - pos) := by omega
  simp [toList, slice, List.drop_append, List.take_append, List.take_replicate, h1, h2]

theorem read_eq_ok_iff {s : Stream} {pos len : Nat} {bs : Bytes} :
    s.read pos len = .ok bs ↔
      (len = 0 ∨ pos + len ≤ s.size) ∧ bs = (s.toList.drop pos).take len := by
  unfold read part
  split <;> rename_i h
  · simp only [bind, Except.bind, pure, Except.pure, toList_slice, Except.ok.injEq]
    exact ⟨fun e => ⟨h, e.symm⟩, fun e => e.2.symm⟩
  · simp [bind, Except.bind, h]

end Stream

end PakIndex
