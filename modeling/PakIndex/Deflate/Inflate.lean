import PakIndex.CopyBack
import PakIndex.Deflate.Alphabet

/-!
# Inflation of a deflate stream

The content is put out a window at a time: a stream is looked at as long as it puts nothing out
beyond the window that is being filled, even if less content is needed. Stored bytes are taken in a
piece at a time, and no more of them once there is enough content.

* `Deflate.Ending`: how inflation stops.
* `Deflate.inflateSymbols`, `Deflate.inflateStored`: the content of a block.
* `Deflate.inflateBlocks`: the content of all blocks, up to the end of a window.
* `Deflate.inflate`: the content of a stream, or as many of its first bytes as are needed.
-/

namespace PakIndex.Deflate

/-- How inflation stops. -/
inductive Ending
  /-- A block ends, and `rest` follows it. -/
  | complete (rest : BitSource)
  /-- More content would not fit into the window. -/
  | full
  | fault (fault : Fault)

/-- The content of a window. -/
def windowSize : Nat := 0x8000

/-- Where the window ends in which `limit` bytes are first there. -/
def windowEnd (limit : Nat) : Nat := (limit + windowSize - 1) / windowSize * windowSize

/-- How many stored bytes are taken in at a time. -/
def pieceSize : Nat := 0x8000

/-- The length and the distance of a copy whose length has the given symbol. -/
def readCopy (distances : Code) (symbol : Nat) (source : BitSource) :
    Except Fault (Nat × Nat × BitSource) := do
  let (length, source) ← extended lengths symbol source
  let (symbol, source) ← distances.next source
  let (distance, source) ← extended Deflate.distances symbol source
  return (length, distance, source)

/-- The rest of a block of symbols, appended to `out`, of which no more is put out once there are
`limit` bytes. Symbols below 256 are bytes, 256 ends the block, and longer ones copy. -/
def inflateSymbols (literals distances : Code) (limit : Nat) :
    (fuel : Nat) → BitSource → (out : ByteArray) → Ending × ByteArray
  | 0, _, out => (.fault .incomplete, out)
  | fuel + 1, source, out =>
    match literals.next source with
    | .error e => (.fault e, out)
    | .ok (symbol, source) =>
      if symbol < 256 then
        if limit ≤ out.size then (.full, out)
        else inflateSymbols literals distances limit fuel source (out.push (.ofNat symbol))
      else if symbol = 256 then (.complete source, out)
      else
        match readCopy distances (symbol - 257) source with
        | .error e => (.fault e, out)
        | .ok (length, distance, source) =>
          if out.size < distance then (.fault .corrupt, out)
          else if limit < out.size + length then (.full, copyBack out distance length)
          else inflateSymbols literals distances limit fuel source (copyBack out distance length)

/-- A block of bytes as they are, appended to `out` up to `limit` bytes: the number of bytes, its
complement and the bytes. -/
def inflateStored (limit : Nat) (source : BitSource) (out : ByteArray) : Ending × ByteArray :=
  match source.align.bytes with
  | l₀ :: l₁ :: c₀ :: c₁ :: rest =>
    let length := Bytes.u16At [l₀, l₁] 0
    if Bytes.u16At [c₀, c₁] 0 ≠ ~~~ length then (.fault .corrupt, out)
    else
      let data := rest.take length.toNat
      let full := limit < out.size + length.toNat
      let out := out ++ data.toByteArray
      if full ∧ limit ≤ out.size then (.full, out)
      else if data.length < length.toNat then (.fault .incomplete, out)
      else (.complete ⟨rest.drop length.toNat, 0⟩, out)
  | _ => (.fault .incomplete, out)

/-- The start of a block: whether it is the last one, and its kind. -/
def readBlockStart (source : BitSource) : Except Fault (Bool × Nat × BitSource) := do
  let (last, source) ← number source 1
  let (kind, source) ← number source 2
  return (last = 1, kind, source)

/-- The content of a block of some kind, appended to `out`. There are `bits` bits at most. -/
def inflateBlock (limit bits kind : Nat) (source : BitSource) (out : ByteArray) :
    Ending × ByteArray :=
  match kind with
  | 0 => inflateStored limit source out
  | 1 => inflateSymbols fixedLiterals fixedDistances limit (bits + 1) source out
  | 2 =>
    match dynamicCodes source with
    | .error e => (.fault e, out)
    | .ok (literals, distances, source) =>
      inflateSymbols literals distances limit (bits + 1) source out
  | _ => (.fault .corrupt, out)

/-- The blocks from here to the last one, appended to `out`, of which no more is put out once there
are `limit` bytes. There are `bits` bits at most. -/
def inflateBlocks (limit bits : Nat) :
    (fuel : Nat) → BitSource → (out : ByteArray) → Ending × ByteArray
  | 0, _, out => (.fault .incomplete, out)
  | fuel + 1, source, out =>
    match readBlockStart source with
    | .error e => (.fault e, out)
    | .ok (last, kind, source) =>
      match inflateBlock limit bits kind source out with
      | (.complete source, out) =>
        if last then (.complete source, out) else inflateBlocks limit bits fuel source out
      | stopped => stopped

/-- How inflation of stored bytes stops, and the content up to there. -/
def inflateWindows (limit : Nat) (stored : Bytes) : Ending × ByteArray :=
  let source : BitSource := ⟨stored, 0⟩
  let bits := source.left
  inflateBlocks (windowEnd limit) bits (bits + 1) source .empty

/-- Whether some whole pieces at the start of the stored bytes hold the first `limit` bytes of the
content, with nothing wrong in them. -/
def piecesSuffice (limit : Nat) (stored : Bytes) : Bool :=
  (List.range (stored.length / pieceSize)).any fun i =>
    match inflateWindows limit (stored.take ((i + 1) * pieceSize)) with
    | (.fault .incomplete, out) => limit ≤ out.size
    | _ => false

/-- The content of a deflate stream, or its first `limit` bytes if there are more. Missing bytes
matter only if they are needed for these. What is wrong before the window ends always does, unless
whole pieces that come before it hold all that is needed. -/
def inflate (limit : Nat) (stored : Bytes) : Except Fault Bytes :=
  match inflateWindows limit stored with
  | (.fault .corrupt, out) =>
    if limit ≤ out.size && piecesSuffice limit stored then .ok (out.data.toList.take limit)
    else .error .corrupt
  | (.fault .incomplete, out) =>
    if out.size < limit then .error .incomplete else .ok (out.data.toList.take limit)
  | (_, out) => .ok (out.data.toList.take limit)

end PakIndex.Deflate
