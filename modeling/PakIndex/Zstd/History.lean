import PakIndex.CopyBack

/-!
# What copies can reach

A frame is put out into a memory. When the memory is full the output goes on at its beginning, in a
new lap, and writes over the lap before from there on.

* `Zstd.History`: the laps that copies can reach.
* `Zstd.History.reaches`: whether a copy of some distance is possible.
* `Zstd.History.copy`: the output with a copy.
-/

namespace PakIndex.Zstd

/-- The lap under way and the one before. -/
structure History where
  /-- How much output there was when the lap began. -/
  start : Nat
  /-- How many bytes the lap before has. -/
  before : Nat := 0

namespace History

/-- Whether a copy of some distance is possible after `count` bytes of output. -/
def reaches (h : History) (count distance : Nat) : Bool :=
  0 < distance && distance ≤ count - h.start + h.before

/-- `out` with `length` bytes more, each the one `distance` before it. A copy that begins in the lap
before finds the bytes that are in the memory now, and goes on at the beginning of the lap. -/
def copy (h : History) (out : ByteArray) (distance length : Nat) : ByteArray :=
  let lap := out.size - h.start
  if distance ≤ lap then copyBack out distance length
  else
    let beyond := distance - lap
    let count := min length beyond
    let place := h.start + (h.before - beyond)
    let written := out.extract place (min (place + count) out.size)
    let old := out.extract (h.start - beyond + written.size) (h.start - beyond + count)
    let out := out ++ written ++ old
    copyBack out (out.size - h.start) (length - count)

end History

end PakIndex.Zstd
