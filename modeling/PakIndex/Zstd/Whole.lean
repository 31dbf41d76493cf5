import PakIndex.Zstd.Block

/-!
# Frames decoded as a whole

A frame that is there with all its bytes, and whose content fits into what is asked for, is decoded
at once and right into the output.

* `Zstd.wholeEnd?`: where a frame ends whose bytes are all there.
* `Zstd.decodeWhole`: the content of such a frame.
-/

namespace PakIndex.Zstd

/-- Where the blocks end that begin at `pos`, if they end by `stop`. -/
def blocksEnd? (bytes : ByteArray) (stop : Nat) : (fuel : Nat) → (pos : Nat) → Option Nat
  | 0, _ => none
  | fuel + 1, pos =>
    if stop < pos + BlockHeader.width then none
    else
      match BlockHeader.read bytes pos with
      | .error _ => none
      | .ok b =>
        let pos := pos + BlockHeader.width + b.stored
        if stop < pos then none
        else if b.isLast then some pos
        else blocksEnd? bytes stop fuel pos

/-- Where a frame ends whose blocks begin at `pos`, if it ends by `stop`. -/
def wholeEnd? (h : FrameHeader) (bytes : ByteArray) (pos stop : Nat) : Option Nat :=
  match blocksEnd? bytes stop (stop - pos) pos with
  | none => none
  | some pos =>
    let pos := if h.hasChecksum then pos + 4 else pos
    if stop < pos then none else some pos

/-- The content of the blocks from `pos` to the last one, appended to `out`, and where they end. The
content of the frame begins at `start`; there is room up to `limit`. -/
def decodeBlocks (h : FrameHeader) (bytes : ByteArray) (start limit : Nat) :
    (fuel : Nat) → (pos : Nat) → Carry → (out : ByteArray) → Except Fault (Nat × ByteArray)
  | 0, _, _, _ => .error .wrongSize
  | fuel + 1, pos, c, out => do
    let b ← BlockHeader.read bytes pos
    let pos := pos + BlockHeader.width
    let target : Target := ⟨h.blockSize, limit - out.size, true⟩
    let (c, out) ← decodeBlock target { start } bytes pos b c out
    let pos := pos + b.stored
    if b.isLast then return (pos, out)
    decodeBlocks h bytes start limit fuel pos c out

/-- The content of a frame whose blocks begin at `pos`, appended to `out`. There is room for `room`
bytes. -/
def decodeWhole (h : FrameHeader) (bytes : ByteArray) (pos room : Nat) (out : ByteArray) :
    Except Fault ByteArray := do
  let start := out.size
  if h.dictionary ≠ 0 then throw .dictionaryMismatch
  let (pos, out) ← decodeBlocks h bytes start (start + room) (bytes.size - pos) pos {} out
  checkContentSize h start out
  if h.hasChecksum then checkChecksum bytes pos start out
  return out

end PakIndex.Zstd
