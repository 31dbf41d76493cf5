import PakIndex.Zstd.Header

/-!
# The memory of a decoder

A frame that is not decoded as a whole is put out into a memory first, which is as large as its
window needs. The memory stays for the frames that follow.

* `Zstd.Memory`: the memory for stored bytes and for output.
* `Zstd.Memory.fit`: the memory for the next frame.
-/

namespace PakIndex.Zstd

/-- The largest window of a frame that is decoded through a memory. -/
def maxWindowSize : Nat := 0x8000001

/-- The memory for stored bytes and for output. -/
structure Memory where
  input : Nat := 0
  output : Nat := 0
  /-- For how many frames in a row there has been far more memory than they need. -/
  excess : Nat := 0

namespace Memory

/-- How many times the memory that a frame needs is far more than that. -/
def excessFactor : Nat := 3

/-- For how many frames in a row far too much memory is kept. -/
def maxExcess : Nat := 128

/-- The memory for output that a frame needs: the whole content, if that is known and small, or else
a window, two blocks and a gap after each of them. -/
def outputSize (window blockSize : Nat) (content : Option Nat) : Nat :=
  let ring := window + 2 * blockSize + 2 * Target.gap
  match content with
  | none => ring
  | some size => min size ring

/-- The memory for the next frame. Memory that is there is used again, unless it is too small or has
been far too large for many frames. -/
def fit (m : Memory) (window blockSize : Nat) (content : Option Nat) : Memory :=
  let input := max blockSize 4
  let output := outputSize window blockSize content
  let excess := if excessFactor * (input + output) ≤ m.input + m.output then m.excess + 1 else 0
  if m.input < input ∨ m.output < output ∨ maxExcess ≤ excess then ⟨input, output, excess⟩
  else { m with excess }

end Memory

end PakIndex.Zstd
