import PakIndex.Checksum.XxHash64
import PakIndex.Zstd.Header
import PakIndex.Zstd.Sequences

/-!
# Blocks of a frame

* `Zstd.BlockHeader`: what a block says about itself.
* `Zstd.Carry`: what the blocks of a frame hand on besides their content.
* `Zstd.decodeCoded`: the content of a coded block.
-/

namespace PakIndex.Zstd

/-- How the content of a block is stored. -/
inductive BlockKind
  | plain
  /-- As one byte that is repeated. -/
  | repeated
  | coded
  deriving Repr, DecidableEq, Inhabited

/-- What a block says about itself. -/
structure BlockHeader where
  kind : BlockKind
  isLast : Bool
  /-- The size of the content of a repeated byte, and the stored size of any other content. -/
  size : Nat

namespace BlockHeader

/-- The width of a header. -/
def width : Nat := 3

/-- How many bytes follow the header. -/
def stored (b : BlockHeader) : Nat := if b.kind = .repeated then 1 else b.size

/-- The header at `pos`; the fourth kind of block is not in use. -/
def read (bytes : ByteArray) (pos : Nat) : Except Fault BlockHeader :=
  let n := numberAt bytes pos width
  let header (kind : BlockKind) : BlockHeader := ⟨kind, n % 2 = 1, n / 8⟩
  match n / 2 % 4 with
  | 0 => .ok (header .plain)
  | 1 => .ok (header .repeated)
  | 2 => .ok (header .coded)
  | _ => .error .corrupted

end BlockHeader

/-- What the blocks of a frame hand on besides their content. -/
structure Carry where
  literals : Option PrefixTable := none
  tables : Option Tables := none
  recent : Recent := {}

/-- `out` with `count` times one byte, for which there must be room. -/
def appendRepeated (b : UInt8) (count room : Nat) (out : ByteArray) : Except Fault ByteArray :=
  if room < count then .error .destinationTooSmall else .ok (out ++ repeatByte b count)

/-- `out` with the bytes from `pos` on, for which there must be room. -/
def appendPlain (bytes : ByteArray) (pos count room : Nat) (out : ByteArray) :
    Except Fault ByteArray :=
  if room < count then .error .destinationTooSmall else .ok (out ++ bytes.extract pos (pos + count))

/-- The content of a coded block, appended to `out`. -/
def decodeCoded (target : Target) (history : History) (block : ByteArray) (c : Carry)
    (out : ByteArray) : Except Fault (Carry × ByteArray) := do
  if target.blockSize < block.size then throw .wrongSize
  let literals ← readLiterals block target c.literals
  let (out, tables, recent) ← runSequences (block.extract literals.used block.size) literals.bytes
    c.tables c.recent history literals.room out
  return (⟨literals.table, tables, recent⟩, out)

/-- The content of a block whose stored bytes begin at `pos`, appended to `out`. -/
def decodeBlock (target : Target) (history : History) (bytes : ByteArray) (pos : Nat)
    (b : BlockHeader) (c : Carry) (out : ByteArray) : Except Fault (Carry × ByteArray) := do
  match b.kind with
  | .plain => return (c, ← appendPlain bytes pos b.size target.room out)
  | .repeated => return (c, ← appendRepeated (bytes[pos]?.getD 0) b.size target.room out)
  | .coded => decodeCoded target history (bytes.extract pos (pos + b.size)) c out

/-- Whether the content of a frame from `start` on has the size that the frame says. -/
def checkContentSize (h : FrameHeader) (start : Nat) (out : ByteArray) : Except Fault Unit := do
  if let some size := h.contentSize then
    if out.size - start ≠ size then throw .corrupted

/-- Whether the content of a frame from `start` on has the checksum at `pos`. -/
def checkChecksum (bytes : ByteArray) (pos start : Nat) (out : ByteArray) : Except Fault Unit := do
  let hash := xxHash64 (out.extract start out.size).data.toList
  if numberAt bytes pos 4 ≠ hash.toUInt32.toNat then throw .wrongChecksum

end PakIndex.Zstd
