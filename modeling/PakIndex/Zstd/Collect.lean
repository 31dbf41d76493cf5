import PakIndex.Zstd.Decoder

/-!
# The content of a sequence of frames

The content is collected in a buffer that grows as it fills up. How large the buffer is decides how
much a decoder is asked for at a time, and so which frames it decodes as a whole.

* `Zstd.Buffer`: how large a buffer is.
* `Zstd.collect`: a decoder that is asked for content until there is enough.
* `Zstd.decompress`: the content of a sequence of frames, of which no more is looked at than a given
  number of bytes needs.
-/

namespace PakIndex.Zstd

/-- How large a buffer is. -/
structure Buffer where
  /-- How large it was in the beginning. -/
  initial : Nat
  capacity : Nat
  /-- How much is asked for at a time. -/
  largest : Nat

namespace Buffer

/-- How much is asked for to see whether there is anything at all. -/
def probe : Nat := 32

/-- The buffer with room for `size` bytes. It grows by doubling. -/
def grow (b : Buffer) (size : Nat) : Buffer :=
  { b with capacity := if size ≤ b.capacity then b.capacity else max (max (2 * b.capacity) size) 8 }

/-- Whether a buffer that holds `size` bytes first asks for a little, before it grows: if it is
empty and small, or if it is full and may be just large enough. -/
def probes (b : Buffer) (size : Nat) : Bool :=
  (size == 0 && b.capacity < probe) || (size == b.capacity && b.capacity == b.initial)

/-- The buffer with room for more than the `size` bytes that it holds. -/
def extend (b : Buffer) (size : Nat) : Buffer :=
  if size = b.capacity then b.grow (size + probe) else b

/-- How much a buffer that holds `size` bytes asks for. -/
def request (b : Buffer) (size : Nat) : Nat := min (b.capacity - size) b.largest

/-- The buffer after it has asked for `room` bytes and got `count`. A large request that is met in
full is followed by larger ones. -/
def adapt (b : Buffer) (room count : Nat) : Buffer :=
  if b.largest ≤ room ∧ count = room then { b with largest := 2 * b.largest } else b

end Buffer

/-- The decoder after it has been asked for content until there are `limit` bytes or no more. -/
def collect (bytes : ByteArray) (limit : Nat) :
    (fuel : Nat) → Buffer → Decoder → (out : ByteArray) → Except Fault (Decoder × ByteArray)
  | 0, _, d, out => .ok (d, out)
  | fuel + 1, b, d, out =>
    let size := d.passed
    if limit ≤ size then .ok (d, out)
    else
      let probes := b.probes size
      let b := if probes then b else b.extend size
      let room := if probes then Buffer.probe else b.request size
      match d.read bytes (min room (limit - size)) out with
      | .error e => .error e
      | .ok (d, out) =>
        if d.passed = size then .ok (d, out)
        else if probes then collect bytes limit fuel (b.grow d.passed) d out
        else collect bytes limit fuel (b.adapt room (d.passed - size)) d out

/-- The content of a sequence of frames, or its first `expected + 1` bytes if there are more. The
buffer is at first as large as expected, but at most eight times as large as what is stored. -/
def decompress (expected : Nat) (stored : Bytes) : Except Fault Bytes :=
  let bytes := stored.toByteArray
  let capacity := min expected (8 * bytes.size)
  match collect bytes (expected + 1) (expected + 2) ⟨capacity, capacity, 0x2000⟩ {} .empty with
  | .error e => .error e
  | .ok (d, out) => .ok (out.data.toList.take d.passed)

end PakIndex.Zstd
