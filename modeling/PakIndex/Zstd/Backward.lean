/-!
# Bits read from the end

* `Zstd.Backward`: bytes read bit by bit from the last one down. The highest set bit of the last
  byte only marks where the bits begin.
* `Zstd.Backward.peek`, `Zstd.Backward.take`: the next bits as a number, the first of them highest.
* `Zstd.Backward.takeExtra`: the same for the extra bits of a symbol.

A reader who asks for more bits than are left is told so only by `left`; the bits that it is given
come from the first eight bytes.
-/

namespace PakIndex.Zstd

/-- The number of `width` bits of `bytes` from bit `start` on; missing bytes are zero. -/
def bitsAt (bytes : ByteArray) (start width : Nat) : Nat :=
  let first := start / 8
  let count := (start % 8 + width + 7) / 8
  let word := (List.range count).foldr (fun i n => (bytes[first + i]?.getD 0).toNat + 256 * n) 0
  (word >>> (start % 8)) % (1 <<< width)

/-- Bytes read from the end, with `left` bits to come; `left` is negative once more bits have been
asked for than there are. -/
structure Backward where
  bytes : ByteArray
  left : Int

namespace Backward

/-- The bits of a byte string, if its last byte marks where they begin. -/
def ofBytes? (bytes : ByteArray) : Option Backward :=
  match bytes[bytes.size - 1]? with
  | none => none
  | some last =>
    if last = 0 then none else some ⟨bytes, 8 * (bytes.size - 1) + last.toNat.log2⟩

/-- The number of the first eight bytes. -/
def head (s : Backward) : Nat := bitsAt s.bytes 0 64

/-- The next `width` bits as a number. Where they reach beyond the first bit, the first eight bytes
are read as if they stood in a ring. -/
def peek (s : Backward) (width : Nat) : Nat :=
  if width ≤ s.left then bitsAt s.bytes (s.left.toNat - width) width
  else (s.head >>> ((s.left - width) % 64).toNat) % (1 <<< width)

/-- The next `width` bits as a number. Where they reach beyond the first bit, zeros follow it;
beyond that, the first eight bytes come again. -/
def peekExtra (s : Backward) (width : Nat) : Nat :=
  if width ≤ s.left then bitsAt s.bytes (s.left.toNat - width) width
  else ((s.head <<< (-s.left % 64).toNat) % (1 <<< 64)) >>> (64 - width)

/-- The source after `width` bits. -/
def skip (s : Backward) (width : Nat) : Backward := { s with left := s.left - width }

/-- The next `width` bits as a number and the source after them. -/
def take (s : Backward) (width : Nat) : Nat × Backward := (s.peek width, s.skip width)

/-- The next `width` extra bits as a number and the source after them. -/
def takeExtra (s : Backward) (width : Nat) : Nat × Backward := (s.peekExtra width, s.skip width)

end Backward

end PakIndex.Zstd
