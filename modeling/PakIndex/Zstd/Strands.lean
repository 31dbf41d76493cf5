import PakIndex.Bytes
import PakIndex.Zstd.Huffman

/-!
# Symbols in four bit strings

Many symbols are written in four bit strings, so that they can be decoded side by side.

* `Zstd.Strand`: a bit string that is being decoded.
* `Zstd.sideBySide`: four strands after as many rounds as are possible.
* `Zstd.decodeFour`: the symbols of four bit strings.

Strands that are decoded side by side are not held to their own bytes: bits that are left over do
not matter, and a strand that needs more bits goes on into the bytes before it.
-/

namespace PakIndex.Zstd

/-- The little-endian number in the first `width` bytes. -/
def headNumber (bytes : ByteArray) (width : Nat) : Nat :=
  ofLittleEndian (bytes.extract 0 width).data.toList

/-- A bit string that is being decoded. -/
structure Strand where
  /-- The bits that are left, down to the first byte of all four strings. -/
  bits : Backward
  /-- Where its own bytes begin. -/
  start : Nat
  out : ByteArray := .empty

namespace Strand

/-- The size of the window of bytes that a strand reads through. -/
def window : Nat := 8

/-- How many symbols every strand decodes in a round. -/
def perRound : Nat := 5

/-- By how many bytes a strand moves in a round at most. -/
def perRoundBytes : Nat := 7

/-- The longest word of strands that are decoded side by side. -/
def maxLog : Nat := 11

/-- The strand of the bytes from `start` to `stop`. A last byte of zero holds bits as any other. -/
def ofBytes (bytes : ByteArray) (start stop : Nat) : Strand :=
  let bytes := bytes.extract 0 stop
  let last := bytes[stop - 1]?.getD 0
  let left := if last = 0 then 8 * stop else 8 * (stop - 1) + last.toNat.log2
  { bits := ⟨bytes, left⟩, start }

/-- The strand after `count` more symbols. -/
def advance (s : Strand) (t : PrefixTable) (count : Nat) : Strand :=
  let (out, bits) := t.decodeFrom count s.bits s.out
  { s with out, bits }

/-- Where the window of a strand begins. -/
def place (s : Strand) : Nat :=
  if s.out.isEmpty then s.bits.bytes.size - window else (s.bits.left.toNat + 7) / 8 - window

/-- Whether the window of a strand has at most moved off its own bytes. -/
def isNear (s : Strand) : Bool := s.start ≤ s.place + window

end Strand

/-- The strands after as many rounds as are possible: until the last one, which has `left` symbols
to come, is short of a round, until the first one comes near the first byte, or until the window of
one has moved past that of the one before. -/
def sideBySide (t : PrefixTable) : (fuel left : Nat) → List Strand → List Strand
  | 0, _, strands => strands
  | fuel + 1, left, strands =>
    let places := strands.map Strand.place
    let rounds := min (left / Strand.perRound) (places.headD 0 / Strand.perRoundBytes)
    let ordered := (places.zip places.tail).all fun p => p.1 ≤ p.2
    if rounds = 0 ∨ ¬ ordered then strands
    else
      let count := rounds * Strand.perRound
      sideBySide t fuel (left - count) (strands.map (·.advance t count))

/-- The symbols of four strands, of which all but the last have `quarter`. -/
def decodeStrands (t : PrefixTable) (strands : List Strand) (size quarter : Nat) :
    Except Fault ByteArray :=
  let last := size - 3 * quarter
  let strands := sideBySide t size last strands
  if ¬ strands.all Strand.isNear then .error .corrupted
  else
    let finish (s : Strand) (count : Nat) := (s.advance t (count - s.out.size)).out
    .ok ((strands.zipWith finish [quarter, quarter, quarter, last]).foldl (· ++ ·) .empty)

/-- `size` symbols in four bit strings, whose sizes but the last come first. Short strings and long
words are decoded string by string. -/
def decodeFour (t : PrefixTable) (bytes : ByteArray) (size : Nat) : Except Fault ByteArray := do
  if bytes.size < 10 then throw .corrupted
  let first := 6
  let second := first + headNumber bytes 2
  let third := second + headNumber (bytes.extract 2 4) 2
  let fourth := third + headNumber (bytes.extract 4 6) 2
  if bytes.size < fourth then throw .corrupted
  let quarter := (size + 3) / 4
  let ranges := [(first, second), (second, third), (third, fourth), (fourth, bytes.size)]
  if t.log ≤ Strand.maxLog ∧ 3 * quarter < size
      ∧ ranges.all (fun r => r.1 + Strand.window ≤ r.2) then
    decodeStrands t (ranges.map fun r => .ofBytes bytes r.1 r.2) size quarter
  else
    if size < 3 * quarter then throw .corrupted
    let counts := [quarter, quarter, quarter, size - 3 * quarter]
    (ranges.zip counts).foldlM (fun out p => t.decode (bytes.extract p.1.1 p.1.2) p.2 out) .empty

end PakIndex.Zstd
