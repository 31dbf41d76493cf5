import PakIndex.Bytes

/-!
# Bit sources

* `BitSource`: bytes read bit by bit, the low bit of every byte first.
* `BitSource.bit?`, `BitSource.number?`: the next bit and the next number, whose first bit is its
  lowest.
* `BitSource.align`: the source at the next whole byte.
-/

namespace PakIndex

/-- Bytes of which the first has lost its `used` low bits. -/
structure BitSource where
  bytes : Bytes
  /-- Below 8. -/
  used : Nat := 0

namespace BitSource

/-- The next bit, as a number, and the source after it. -/
def bit? (s : BitSource) : Option (Nat × BitSource) :=
  match s.bytes with
  | [] => none
  | b :: rest =>
    let bit := (b.toNat >>> s.used) % 2
    some (bit, if s.used = 7 then ⟨rest, 0⟩ else ⟨s.bytes, s.used + 1⟩)

/-- The number of the next `width` bits, the first of them lowest, and the source after them. -/
def number? (s : BitSource) : (width : Nat) → Option (Nat × BitSource)
  | 0 => some (0, s)
  | width + 1 =>
    match s.bit? with
    | none => none
    | some (bit, s) =>
      match s.number? width with
      | none => none
      | some (high, s) => some (bit + 2 * high, s)

/-- The source at the next whole byte. -/
def align (s : BitSource) : BitSource := if s.used = 0 then s else ⟨s.bytes.drop 1, 0⟩

/-- Whether `count` more bits are there; `count` is at most 16. -/
def hasBits (s : BitSource) (count : Nat) : Bool :=
  count + s.used ≤ 8 * (s.bytes.take 3).length

/-- The number of bits left. -/
def left (s : BitSource) : Nat := 8 * s.bytes.length - s.used

end BitSource

end PakIndex
