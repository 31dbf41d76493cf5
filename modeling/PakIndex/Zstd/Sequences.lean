import PakIndex.Zstd.Fse
import PakIndex.Zstd.History

/-!
# Sequences of a block

A block is put out in sequences: some literals, then a copy of earlier output.

* `Zstd.Alphabet`: what the symbols of one kind stand for and how they are coded by default.
* `Zstd.Tables`: the state tables of the three kinds, which a later block may use again.
* `Zstd.Recent`: the three offsets used last, which have short names.
* `Zstd.runSequences`: the output of a block.
-/

namespace PakIndex.Zstd

/-- The symbols of one kind. -/
structure Alphabet where
  /-- Base and number of extra bits of every symbol. -/
  values : Array (Nat × Nat)
  /-- The largest table that may be written. -/
  maxLog : Nat
  /-- The table used by default. -/
  default : StateTable

/-- The largest symbol. -/
def Alphabet.maxSymbol (a : Alphabet) : Nat := a.values.size - 1

/-- Numbers of literals. -/
def literalLengths : Alphabet where
  values := #[(0, 0), (1, 0), (2, 0), (3, 0), (4, 0), (5, 0), (6, 0), (7, 0), (8, 0), (9, 0),
    (10, 0), (11, 0), (12, 0), (13, 0), (14, 0), (15, 0), (16, 1), (18, 1), (20, 1), (22, 1),
    (24, 2), (28, 2), (32, 3), (40, 3), (48, 4), (64, 6), (128, 7), (256, 8), (512, 9),
    (1024, 10), (2048, 11), (4096, 12), (8192, 13), (16384, 14), (32768, 15), (65536, 16)]
  maxLog := 9
  default := .ofShares 6 [4, 3, 2, 2, 2, 2, 2, 2, 2, 2, 2, 2, 2, 1, 1, 1, 2, 2, 2, 2, 2, 2, 2, 2,
    2, 3, 2, 1, 1, 1, 1, 1, -1, -1, -1, -1]

/-- Lengths of copies. -/
def copyLengths : Alphabet where
  values := ((List.range 32).map fun i => (i + 3, 0)).toArray ++ #[(35, 1), (37, 1), (39, 1),
    (41, 1), (43, 2), (47, 2), (51, 3), (59, 3), (67, 4), (83, 4), (99, 5), (131, 7), (259, 8),
    (515, 9), (1027, 10), (2051, 11), (4099, 12), (8195, 13), (16387, 14), (32771, 15),
    (65539, 16)]
  maxLog := 9
  default := .ofShares 6 [1, 4, 3, 2, 2, 2, 2, 2, 2, 1, 1, 1, 1, 1, 1, 1, 1, 1, 1, 1, 1, 1, 1, 1,
    1, 1, 1, 1, 1, 1, 1, 1, 1, 1, 1, 1, 1, 1, 1, 1, 1, 1, 1, 1, 1, 1, -1, -1, -1, -1, -1, -1, -1]

/-- Offsets of copies: symbol `n` stands for the numbers of `n + 1` bits. -/
def copyOffsets : Alphabet where
  values := ((List.range 32).map fun i => (1 <<< i, i)).toArray
  maxLog := 8
  default := .ofShares 5 [1, 1, 1, 1, 1, 1, 2, 2, 2, 1, 1, 1, 1, 1, 1, 1, 1, 1, 1, 1, 1, 1, 1, 1,
    -1, -1, -1, -1, -1]

/-- The state tables of the three kinds. -/
structure Tables where
  literals : StateTable
  offsets : StateTable
  copies : StateTable

/-- The table that a block asks for, and how many bytes it takes; `old` is the table before. -/
def readMode (a : Alphabet) (mode : Nat) (bytes : ByteArray) (old : Option StateTable) :
    Except Fault (StateTable × Nat) :=
  match mode with
  | 0 => .ok (a.default, 0)
  | 1 =>
    match bytes[0]? with
    | none => .error .corrupted
    | some b => if a.maxSymbol < b.toNat then .error .corrupted else .ok (.constant b.toNat, 1)
  | 2 => readTable bytes a.maxSymbol a.maxLog
  | _ =>
    match old with
    | none => .error .corrupted
    | some t => .ok (t, 0)

/-! ## Offsets -/

/-- The three offsets used last. -/
structure Recent where
  first : Nat := 1
  second : Nat := 4
  third : Nat := 8

/-- The offset that a written value stands for, and the offsets used last afterwards. Values up to
three name a recent offset, shifted by one where no literals come before the copy. -/
def Recent.offset (r : Recent) (value literals : Nat) : Nat × Recent :=
  if 3 < value then (value - 3, ⟨value - 3, r.first, r.second⟩)
  else
    match (if literals = 0 then value + 1 else value) with
    | 1 => (r.first, r)
    | 2 => (r.second, ⟨r.second, r.first, r.third⟩)
    | 3 => (r.third, ⟨r.third, r.first, r.second⟩)
    | _ => (r.first - 1, ⟨r.first - 1, r.first, r.second⟩)

/-! ## Output -/

/-- What a walk through the sequences of a block carries along. -/
structure Walk where
  bits : Backward
  recent : Recent
  /-- The literals put out so far. -/
  used : Nat
  out : ByteArray

/-- The value of a symbol, with its extra bits. -/
def symbolValue (a : Alphabet) (symbol : Nat) (bits : Backward) : Nat × Backward :=
  let (base, width) := a.values.getD symbol (0, 0)
  let (extra, bits) := bits.takeExtra width
  (base + extra, bits)

/-- The output of `count` sequences, of which there may be `limit` bytes in all. -/
def runFrom (t : Tables) (literals : ByteArray) (history : History) (limit : Nat) :
    (count : Nat) → (l o c : State) → Walk → Except Fault Walk
  | 0, _, _, _, w => .ok w
  | count + 1, l, o, c, ⟨bits, recent, used, out⟩ =>
    let (value, bits) := symbolValue copyOffsets o.symbol bits
    let (length, bits) := symbolValue copyLengths c.symbol bits
    let (ahead, bits) := symbolValue literalLengths l.symbol bits
    let (offset, recent) := recent.offset value ahead
    if limit < out.size + ahead + length then .error .destinationTooSmall
    else if literals.size < used + ahead then .error .corrupted
    else if ¬ history.reaches (out.size + ahead) offset then .error .corrupted
    else
      let out := history.copy (out ++ literals.extract used (used + ahead)) offset length
      if count = 0 then .ok ⟨bits, recent, used + ahead, out⟩
      else
        let (l, bits) := t.literals.next l bits
        let (c, bits) := t.copies.next c bits
        let (o, bits) := t.offsets.next o bits
        runFrom t literals history limit count l o c ⟨bits, recent, used + ahead, out⟩

/-- The number of sequences, and how many bytes it takes. -/
def sequenceCount (bytes : ByteArray) : Except Fault (Nat × Nat) :=
  match bytes[0]?, bytes[1]?, bytes[2]? with
  | none, _, _ => .error .wrongSize
  | some a, b, c =>
    let a := a.toNat
    if a < 128 then .ok (a, 1)
    else
      match b, c with
      | some b, c =>
        if a < 255 then .ok ((a - 128) * 256 + b.toNat, 2)
        else
          match c with
          | some c => .ok (b.toNat + 256 * c.toNat + 0x7F00, 3)
          | none => .error .wrongSize
      | none, _ => .error .wrongSize

/-- The tables that `modes` asks for, which may be written at the start of `bytes`, and the bytes
after them; `old` are the tables before. -/
def readTables (modes : Nat) (bytes : ByteArray) (old : Option Tables) :
    Except Fault (Tables × ByteArray) := do
  let (l, used) ← readMode literalLengths (modes / 64) bytes (old.map (·.literals))
  let bytes := bytes.extract used bytes.size
  let (o, used) ← readMode copyOffsets (modes / 16 % 4) bytes (old.map (·.offsets))
  let bytes := bytes.extract used bytes.size
  let (c, used) ← readMode copyLengths (modes / 4 % 4) bytes (old.map (·.copies))
  return (⟨l, o, c⟩, bytes.extract used bytes.size)

/-- The output of a block with the given literals and sequences, appended to `out`, with the tables
and recent offsets for the next block. There is room for `room` bytes. -/
def runSequences (bytes literals : ByteArray) (old : Option Tables) (recent : Recent)
    (history : History) (room : Nat) (out : ByteArray) :
    Except Fault (ByteArray × Option Tables × Recent) := do
  let (count, used) ← sequenceCount bytes
  let bytes := bytes.extract used bytes.size
  if count = 0 then
    if bytes.size ≠ 0 then throw .corrupted
    return (out ++ literals, old, recent)
  let some modes := bytes[0]? | throw .wrongSize
  let modes := modes.toNat
  if modes % 4 ≠ 0 then throw .corrupted
  let (tables, bytes) ← readTables modes (bytes.extract 1 bytes.size) old
  if room = 0 then throw .destinationTooSmall
  let some bits := Backward.ofBytes? bytes | throw .corrupted
  let (l, bits) := tables.literals.start bits
  let (o, bits) := tables.offsets.start bits
  let (c, bits) := tables.copies.start bits
  let limit := out.size + room
  let w ← runFrom tables literals history limit count l o c ⟨bits, recent, 0, out⟩
  if w.bits.left ≠ 0 then throw .corrupted
  let rest := literals.extract w.used literals.size
  if limit < w.out.size + rest.size then throw .destinationTooSmall
  return (w.out ++ rest, some tables, w.recent)

end PakIndex.Zstd
