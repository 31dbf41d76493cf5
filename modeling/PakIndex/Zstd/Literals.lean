import PakIndex.Zstd.Strands

/-!
# Literals of a block

* `Zstd.Target`: how much content a block may have.
* `Zstd.Literals`: the bytes that a block puts out besides copies, and what the next block may use.
* `Zstd.readLiterals`: the literals at the start of a block.
-/

namespace PakIndex.Zstd

/-- What the content of a block goes into. -/
structure Target where
  /-- The largest content of a block of the frame. -/
  blockSize : Nat
  /-- For how many bytes there is room. -/
  room : Nat
  /-- Whether the frame is decoded as a whole. -/
  whole : Bool

/-- The width of the gaps around literals that lie behind the content of their block. -/
def Target.gap : Nat := 32

/-- Whether `size` literals can be kept in the room behind the largest content of a block. Only a
frame that is decoded as a whole uses that room. -/
def Target.keeps (t : Target) (size : Nat) : Bool :=
  t.whole && t.blockSize + Target.gap + size + Target.gap < t.room

/-- How much content fits before literals that are kept behind it. -/
def Target.kept (t : Target) : Nat := t.blockSize + Target.gap

/-- The literals of a block. -/
structure Literals where
  bytes : ByteArray
  /-- The prefix table that the next block may use again. -/
  table : Option PrefixTable
  /-- How many bytes of the block are used up. -/
  used : Nat
  /-- For how much content there is room. -/
  room : Nat

/-- `count` times one byte. -/
def repeatByte (b : UInt8) (count : Nat) : ByteArray := (List.replicate count b).toByteArray

/-- Size and width of the size field of literals that are not coded. -/
def plainSize (bytes : ByteArray) (form : Nat) : Nat × Nat :=
  match form with
  | 1 => (headNumber bytes 2 / 16, 2)
  | 3 => (headNumber bytes 3 / 16, 3)
  | _ => (headNumber bytes 1 / 8, 1)

/-- Size, coded size and width of the size fields of coded literals. -/
def codedSizes (bytes : ByteArray) (form : Nat) : Nat × Nat × Nat :=
  match form with
  | 2 => (headNumber bytes 4 / 16 % 0x4000, headNumber bytes 4 / 0x40000, 4)
  | 3 => (headNumber bytes 5 / 16 % 0x40000, headNumber bytes 5 / 0x400000, 5)
  | _ => (headNumber bytes 3 / 16 % 0x400, headNumber bytes 3 / 0x4000, 3)

/-- Whether a block may have `size` literals. -/
def checkSize (target : Target) (size : Nat) : Except Fault Unit := do
  if target.blockSize < size then throw .corrupted
  if target.room < size then throw .destinationTooSmall

/-- Literals that are written as they are or, if `repeated`, as one byte that is repeated. -/
def readPlain (bytes : ByteArray) (target : Target) (table : Option PrefixTable) (form : Nat)
    (repeated : Bool) : Except Fault Literals := do
  let (size, width) := plainSize bytes form
  if bytes.size < (if repeated then width + 1 else width) then throw .corrupted
  checkSize target size
  let room := if target.keeps size then target.kept else target.room
  if repeated then return ⟨repeatByte (bytes[width]?.getD 0) size, table, width + 1, room⟩
  let used := width + size
  if bytes.size < used then throw .corrupted
  return ⟨bytes.extract width used, table, used,
    if used + Target.gap ≤ bytes.size then target.room else room⟩

/-- Literals that are coded by a prefix table: one that comes first or, if `old` is given, that. -/
def readCoded (bytes : ByteArray) (target : Target) (old : Option PrefixTable) (form : Nat) :
    Except Fault Literals := do
  if bytes.size < 5 then throw .corrupted
  let (size, coded, width) := codedSizes bytes form
  if target.blockSize < size then throw .corrupted
  if form ≠ 0 ∧ size < 6 then throw .wrongLiteralsHeader
  if bytes.size < width + coded then throw .corrupted
  checkSize target size
  let body := bytes.extract width (width + coded)
  let (t, used) ←
    match old with
    | some t => pure (t, 0)
    | none => readPrefixTable body
  let body := body.extract used body.size
  let out ← if form = 0 then t.decode body size .empty else decodeFour t body size
  return ⟨out, some t, width + coded, if target.keeps size then target.kept else target.room⟩

/-- The literals at the start of a block; `table` is the prefix table in use before. -/
def readLiterals (bytes : ByteArray) (target : Target) (table : Option PrefixTable) :
    Except Fault Literals := do
  if bytes.size < 2 then throw .corrupted
  let first := headNumber bytes 1
  let form := first / 4 % 4
  match first % 4 with
  | 0 => readPlain bytes target table form false
  | 1 => readPlain bytes target table form true
  | 2 => readCoded bytes target none form
  | _ => if table.isNone then throw .dictionaryCorrupted else readCoded bytes target table form

end PakIndex.Zstd
