import PakIndex.Bytes

/-!
# The checksum of a compressed frame

* `XxHash64.Lanes`: the four lanes that take in 32 bytes at a time.
* `xxHash64`: the 64-bit hash with seed zero.
-/

namespace PakIndex

namespace XxHash64

/-- A factor of lanes and words. -/
def prime₁ : UInt64 := 0x9E3779B185EBCA87

/-- A factor of words and half words. -/
def prime₂ : UInt64 := 0xC2B2AE3D27D4EB4F

/-- What is added after a half word. -/
def prime₃ : UInt64 := 0x165667B19E3779F9

/-- What is added after a lane and a word. -/
def prime₄ : UInt64 := 0x85EBCA77C2B2AE63

/-- The start for short inputs and a factor of single bytes. -/
def prime₅ : UInt64 := 0x27D4EB2F165667C5

/-- The word with its bits moved up by `k`, those that leave coming in below. -/
def rotate (x : UInt64) (k : UInt64) : UInt64 := (x <<< k) ||| (x >>> (64 - k))

/-- A lane after one more word. -/
def round (lane word : UInt64) : UInt64 := rotate (lane + word * prime₂) 31 * prime₁

/-- The hash after it has taken in a lane. -/
def merge (hash lane : UInt64) : UInt64 := (hash ^^^ round 0 lane) * prime₁ + prime₄

/-- Four lanes, each of which takes in every fourth word. -/
structure Lanes where
  a : UInt64 := prime₁ + prime₂
  b : UInt64 := prime₂
  c : UInt64 := 0
  d : UInt64 := 0 - prime₁

/-- The lanes after 32 more bytes. -/
def Lanes.absorb (l : Lanes) (bs : Bytes) : Lanes where
  a := round l.a (bs.u64At 0)
  b := round l.b (bs.u64At 8)
  c := round l.c (bs.u64At 16)
  d := round l.d (bs.u64At 24)

/-- The lanes after all whole stripes of 32 bytes and the bytes left over. -/
def stripes (l : Lanes) : (count : Nat) → Bytes → Lanes × Bytes
  | 0, bs => (l, bs)
  | count + 1, bs => stripes (l.absorb bs) count (bs.drop 32)

/-- The hash of four lanes. -/
def Lanes.hash (l : Lanes) : UInt64 :=
  merge (merge (merge (merge
    (rotate l.a 1 + rotate l.b 7 + rotate l.c 12 + rotate l.d 18) l.a) l.b) l.c) l.d

/-- The hash after fewer than 32 more bytes: words first, then a half word, then single bytes. -/
def tail : (words : Nat) → UInt64 → Bytes → UInt64
  | words + 1, h, bs =>
    tail words (rotate (h ^^^ round 0 (bs.u64At 0)) 27 * prime₁ + prime₄) (bs.drop 8)
  | 0, h, bs =>
    let half := 4 ≤ bs.length
    let h := if half then
        rotate (h ^^^ ((bs.u32At 0).toUInt64 * prime₁)) 23 * prime₂ + prime₃
      else h
    (if half then bs.drop 4 else bs).foldl
      (fun h b => rotate (h ^^^ (b.toUInt64 * prime₅)) 11 * prime₁) h

/-- Spreads every bit of the hash over all others. -/
def finish (h : UInt64) : UInt64 :=
  let h := (h ^^^ (h >>> 33)) * prime₂
  let h := (h ^^^ (h >>> 29)) * prime₃
  h ^^^ (h >>> 32)

end XxHash64

open XxHash64 in
/-- The 64-bit hash of a byte string, with seed zero. -/
def xxHash64 (bs : Bytes) : UInt64 :=
  let size := bs.length
  let (lanes, rest) := stripes {} (size / 32) bs
  let h := if 32 ≤ size then lanes.hash else prime₅
  finish (tail (size % 32 / 8) (h + .ofNat size) rest)

end PakIndex
