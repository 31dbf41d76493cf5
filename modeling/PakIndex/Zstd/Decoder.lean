import PakIndex.Zstd.Memory
import PakIndex.Zstd.Older
import PakIndex.Zstd.Whole

/-!
# A decoder of frames

A decoder is given the stored bytes in portions and asked for content in pieces. It goes through a
frame part by part until it has what it is asked for; content that a block puts out beyond that is
kept for the next time.

* `Zstd.Part`: what comes next in a frame.
* `Zstd.Frame`: a frame that is decoded part by part.
* `Zstd.Decoder`: where a decoder stands.
* `Zstd.Decoder.step`: a decoder after the next part.
* `Zstd.Decoder.read`: a decoder after it has been asked for a piece of content.
-/

namespace PakIndex.Zstd

/-- What comes next in a frame. -/
inductive Part
  | blockHeader
  /-- The rest of a block that is stored as it is. -/
  | plain (count : Nat) (isLast : Bool)
  | content (block : BlockHeader)
  | checksum
  /-- Nothing: the frame ends here. -/
  | ending

/-- A frame that is decoded part by part. -/
structure Frame where
  header : FrameHeader
  /-- How much output there was when the frame began. -/
  start : Nat
  /-- The memory for its output. -/
  memory : Nat
  history : History
  next : Part := .blockHeader
  carry : Carry := {}

namespace Frame

/-- For how many bytes there is room in this lap. -/
def room (f : Frame) (out : ByteArray) : Nat := f.memory - (out.size - f.history.start)

/-- The frame at the beginning of a new lap, if what there is room for is less than a block and the
content is larger than the memory. -/
def turn (f : Frame) (out : ByteArray) : Frame :=
  let fits := f.header.contentSize.any (· ≤ f.memory)
  if ¬ fits ∧ f.room out < f.header.blockSize then
    { f with history := ⟨out.size, out.size - f.history.start⟩ }
  else f

/-- What comes after the last block. -/
def afterLast (f : Frame) : Part := if f.header.hasChecksum then .checksum else .ending

/-- The frame after a block with the given header has begun. -/
def enter (f : Frame) (b : BlockHeader) : Except Fault Frame :=
  if f.header.blockSize < b.stored then .error .corrupted
  else if b.stored = 0 then
    .ok { f with next := if b.isLast then f.afterLast else .blockHeader }
  else if b.kind = .plain then .ok { f with next := .plain b.size b.isLast }
  else .ok { f with next := .content b }

/-- The frame after a block has ended. The last block shows how much content there is. -/
def leave (f : Frame) (isLast : Bool) (out : ByteArray) : Except Fault Frame :=
  if isLast then do
    checkContentSize f.header f.start out
    return { f with next := f.afterLast }
  else .ok { f with next := .blockHeader }

/-- The frame after the first `count` bytes of the rest of a block, which stand at `pos`, have been
appended to `out`. -/
def advance (f : Frame) (bytes : ByteArray) (pos count : Nat) (rest : Nat) (isLast : Bool)
    (out : ByteArray) : Except Fault (Frame × ByteArray) := do
  let out ← appendPlain bytes pos count (f.room out) out
  if count < rest then return ({ f with next := .plain (rest - count) isLast }, out)
  return (← f.leave isLast out, out)

/-- The frame after the content of a block, whose stored bytes begin at `pos`, has been appended to
`out`. -/
def decode (f : Frame) (bytes : ByteArray) (pos : Nat) (b : BlockHeader) (out : ByteArray) :
    Except Fault (Frame × ByteArray) := do
  let before := out.size
  let target : Target := ⟨f.header.blockSize, f.room out, false⟩
  let (carry, out) ← decodeBlock target f.history bytes pos b f.carry out
  if f.header.blockSize < out.size - before then throw .corrupted
  return (← { f with carry }.leave b.isLast out, out)

end Frame

/-! ## Decoders -/

/-- What a decoder is at. -/
inductive Stage
  | between
  /-- Bytes that are to be skipped. -/
  | skipping (count : Nat)
  | inside (frame : Frame)
  /-- The blocks of a frame of an older version. -/
  | older (version : OlderVersion)

/-- Where a decoder stands. -/
structure Decoder where
  /-- Where the next part begins. -/
  pos : Nat := 0
  /-- How many bytes have been given. -/
  given : Nat := 0
  /-- Whether the next part needs more than the bytes given. -/
  waiting : Bool := false
  /-- Whether a frame has ended and nothing has been given since. -/
  finished : Bool := false
  stage : Stage := .between
  memory : Memory := {}
  /-- How much output has been passed on. -/
  passed : Nat := 0

namespace Decoder

/-- How many bytes have been taken in. -/
def taken (d : Decoder) : Nat := if d.waiting then d.given else d.pos

/-- Whether the next part, of `count` bytes, has been given. -/
def has (d : Decoder) (count : Nat) : Bool := d.pos + count ≤ d.given

/-- The decoder at the end of a frame, at `pos`. -/
def finish (d : Decoder) (pos : Nat) : Decoder :=
  { d with pos, finished := true, stage := .between }

/-- The decoder after output has been passed on, up to `goal` bytes in all, and whether it can go
on. -/
def pass (d : Decoder) (goal : Nat) (out : ByteArray) : Bool × Decoder :=
  if goal < out.size then (false, { d with passed := goal })
  else
    let d := { d with passed := out.size }
    match d.stage with
    | .inside f =>
      match f.next with
      | .ending => (false, d.finish d.pos)
      | _ => (true, { d with stage := .inside (f.turn out) })
    | _ => (true, d)

/-- The decoder before a frame that is decoded part by part. -/
def begin (d : Decoder) (h : FrameHeader) (size : Nat) (out : ByteArray) :
    Except Fault Decoder := do
  if h.dictionary ≠ 0 then throw .dictionaryMismatch
  let window := max h.windowSize 0x400
  if maxWindowSize < window then throw .windowTooLarge
  let memory := d.memory.fit window h.blockSize h.contentSize
  let frame : Frame := {
    header := h
    start := out.size
    memory := memory.output
    history := { start := out.size } }
  return { d with pos := d.pos + size, stage := .inside frame, memory }

/-- The decoder after the header of a frame of another version. -/
def startOther (d : Decoder) (bytes : ByteArray) (number : Nat) :
    Except Fault (Bool × Decoder) := do
  if isOutdated number then throw .unsupportedVersion
  let some version := OlderVersion.ofMagic? number | throw .unknownFrame
  match ← version.readHeader bytes d.pos d.given with
  | none => return (false, { d with waiting := true })
  | some size => return (true, { d with pos := d.pos + size, stage := .older version })

/-- The decoder after the next block of a frame of an older version. -/
def stepOlder (d : Decoder) (version : OlderVersion) (bytes : ByteArray) (out : ByteArray) :
    Except Fault ((Bool × Decoder) × ByteArray) := do
  let wait := ((false, { d with waiting := true }), out)
  let pos := d.pos + BlockHeader.width
  if d.given < pos then return wait
  match OlderBlock.read bytes d.pos with
  | .ending => return ((false, d.finish pos), out)
  | .plain size =>
    if d.given < pos + size then return wait
    return ((true, { d with pos := pos + size }), out ++ bytes.extract pos (pos + size))
  | .repeated size =>
    if d.given < pos + 1 then return wait
    if version ≠ .v07 then throw .unknownContent
    return ((true, { d with pos := pos + 1 }), out ++ repeatByte (bytes[pos]?.getD 0) size)
  | .coded size => if d.given < pos + size then return wait else throw .corrupted

/-- The decoder after the start of a frame, or after the whole frame if it is there and if its
content fits. The decoder was given the bytes from `origin` on the last time. -/
def start (d : Decoder) (bytes : ByteArray) (origin goal : Nat) (out : ByteArray) :
    Except Fault ((Bool × Decoder) × ByteArray) := do
  match ← readFrameStart bytes d.pos d.given with
  | .cut => return ((false, { d with waiting := true }), out)
  | .other number => return (← d.startOther bytes number, out)
  | .skippable content size =>
    let memory := d.memory.fit 0x400 0 (some content)
    return ((true, { d with pos := d.pos + size, stage := .skipping content, memory }), out)
  | .frame h size =>
    let pos := d.pos + size
    let whole? := if origin = d.pos ∧ h.contentSize.any (· ≤ goal - d.passed) then
        wholeEnd? h bytes pos d.given
      else none
    match whole? with
    | some stop =>
      let out ← decodeWhole h bytes pos (goal - d.passed) out
      return ((false, { d.finish stop with passed := out.size }), out)
    | none => return ((true, ← d.begin h size out), out)

/-- The decoder after the next part of a frame, without what the part puts out being passed on. -/
def stepInside (d : Decoder) (f : Frame) (bytes : ByteArray) (out : ByteArray) :
    Except Fault ((Bool × Decoder) × ByteArray) := do
  let wait := ((false, { d with waiting := true }), out)
  match f.next with
  | .blockHeader =>
    if ¬ d.has BlockHeader.width then return wait
    let f ← f.enter (← BlockHeader.read bytes d.pos)
    return ((true, { d with pos := d.pos + BlockHeader.width, stage := .inside f }), out)
  | .plain rest isLast =>
    let count := min rest (d.given - d.pos)
    if count = 0 then return wait
    let (f, out) ← f.advance bytes d.pos count rest isLast out
    return ((true, { d with pos := d.pos + count, stage := .inside f }), out)
  | .content b =>
    if ¬ d.has b.stored then return wait
    let (f, out) ← f.decode bytes d.pos b out
    return ((true, { d with pos := d.pos + b.stored, stage := .inside f }), out)
  | .checksum =>
    if ¬ d.has 4 then return wait
    checkChecksum bytes d.pos f.start out
    let f := { f with next := .ending }
    return ((true, { d with pos := d.pos + 4, stage := .inside f }), out)
  | .ending => return ((true, d), out)

/-- The decoder after the next part, and whether it can go on. It is asked for up to `goal` bytes in
all, and was given the bytes from `origin` on the last time. -/
def step (d : Decoder) (bytes : ByteArray) (origin goal : Nat) (out : ByteArray) :
    Except Fault ((Bool × Decoder) × ByteArray) := do
  match d.stage with
  | .between => d.start bytes origin goal out
  | .skipping count =>
    if d.has count then return ((false, d.finish (d.pos + count)), out)
    else return ((false, { d with waiting := true }), out)
  | .inside f =>
    match ← d.stepInside f bytes out with
    | ((true, d), out) => return (d.pass goal out, out)
    | stopped => return stopped
  | .older version =>
    match ← d.stepOlder version bytes out with
    | ((true, d), out) => return (d.pass goal out, out)
    | stopped => return stopped

/-- The decoder after all parts that it can go through. -/
def run (bytes : ByteArray) (origin goal : Nat) :
    (fuel : Nat) → Decoder → (out : ByteArray) → Except Fault (Decoder × ByteArray)
  | 0, d, out => .ok (d, out)
  | fuel + 1, d, out =>
    match d.step bytes origin goal out with
    | .error e => .error e
    | .ok ((true, d), out) => run bytes origin goal fuel d out
    | .ok ((false, d), out) => .ok (d, out)

/-- How many bytes are given at a time. -/
def portion : Nat := 0x20003

/-- The decoder that has been given more, if it has taken in all that it was given. -/
def feed (d : Decoder) (size : Nat) : Decoder :=
  let given := if d.taken = d.given then min (d.given + portion) size else d.given
  { d with given, waiting := false, finished := false }

/-- The decoder after it has passed on some bytes, but not more than `goal` in all. It passes on
none once all frames have ended. -/
def supply (bytes : ByteArray) (goal : Nat) :
    (fuel : Nat) → Decoder → (out : ByteArray) → Except Fault (Decoder × ByteArray)
  | 0, _, _ => .error .incomplete
  | fuel + 1, d, out =>
    if d.taken = bytes.size then
      if d.finished then .ok (d, out) else .error .incomplete
    else do
      let origin := d.taken
      let (d', out) ← run bytes origin goal (bytes.size + 2) (d.feed bytes.size) out
      if d.passed < d'.passed then return (d', out)
      supply bytes goal fuel d' out

/-- The decoder after it has been asked for a piece of at most `room` bytes. What is left from the
time before comes alone. -/
def read (bytes : ByteArray) (room : Nat) (d : Decoder) (out : ByteArray) :
    Except Fault (Decoder × ByteArray) :=
  let goal := d.passed + room
  if d.passed < out.size then .ok ((d.pass goal out).2, out)
  else supply bytes goal (bytes.size + 2) d out

end Decoder

end PakIndex.Zstd
