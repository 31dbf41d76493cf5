import PakIndex.Zstd.Literals

/-!
# Headers of frames

* `Zstd.FrameHeader`: what a frame says about itself.
* `Zstd.FrameStart`: what stands at the start of a frame.
* `Zstd.readFrameStart`: what the bytes that are there show of the start of a frame.
-/

namespace PakIndex.Zstd

/-- The number that a frame starts with. -/
def magic : Nat := 0xFD2FB528

/-- The largest content of a block. -/
def maxBlockSize : Nat := 0x20000

/-- What a frame says about itself. -/
structure FrameHeader where
  windowSize : Nat
  contentSize : Option Nat
  /-- The dictionary that the frame needs; zero if none. -/
  dictionary : Nat
  hasChecksum : Bool

/-- The largest content of a block of a frame. -/
def FrameHeader.blockSize (h : FrameHeader) : Nat := min h.windowSize maxBlockSize

/-- What stands at the start of a frame. -/
inductive FrameStart
  /-- The bytes end within the header. -/
  | cut
  /-- A frame with a header of the given size. -/
  | frame (header : FrameHeader) (size : Nat)
  /-- A header of the given size, and after it content to be skipped. -/
  | skippable (content size : Nat)
  /-- A frame of another version, with the number that it starts with. -/
  | other (number : Nat)

/-- Whether a number starts a part to be skipped. -/
def isSkippable (n : Nat) : Bool := n / 16 == 0x184D2A5

/-- Whether at most four bytes may start a frame or a part to be skipped. -/
def isMagicStart (bytes : Bytes) : Bool :=
  let start (n : Nat) := ofLittleEndian (bytes ++ (littleEndian 4 n).drop bytes.length)
  start magic == magic || isSkippable (start 0x184D2A50)

/-- The little-endian number of `width` bytes at `pos`. -/
def numberAt (bytes : ByteArray) (pos width : Nat) : Nat :=
  headNumber (bytes.extract pos (pos + width)) width

/-- The widths of the fields of a header, which the byte after its first number tells. -/
structure FieldWidths where
  window : Nat
  dictionary : Nat
  content : Nat

/-- The widths that a descriptor tells. A frame in a single segment has no window of its own. -/
def FieldWidths.ofDescriptor (descriptor : Nat) : FieldWidths :=
  let single := descriptor / 32 % 2 = 1
  { window := if single then 0 else 1
    dictionary := match descriptor % 4 with | 0 => 0 | 1 => 1 | 2 => 2 | _ => 4
    content := match descriptor / 64 with
      | 0 => if single then 1 else 0
      | 1 => 2
      | 2 => 4
      | _ => 8 }

/-- The size of a window as it is written: a power of two, and how many eighths of it are added. -/
def windowSize (field : Nat) : Except Fault Nat := do
  let log := field / 8 + 10
  if 31 < log then throw .windowTooLarge
  return 1 <<< log + (1 <<< log) / 8 * (field % 8)

/-- The header whose fields begin at `pos`. The largest content size means that it is not known. -/
def readFields (bytes : ByteArray) (pos descriptor : Nat) (w : FieldWidths) :
    Except Fault FrameHeader := do
  if descriptor / 8 % 2 = 1 then throw .unsupportedParameter
  let content := numberAt bytes (pos + w.window + w.dictionary) w.content
  let content := if w.content = 2 then content + 256 else content
  let window ← if w.window = 0 then pure content else windowSize (numberAt bytes pos 1)
  return {
    windowSize := window
    contentSize := if w.content = 0 ∨ content = 0xFFFFFFFFFFFFFFFF then none else some content
    dictionary := numberAt bytes (pos + w.window) w.dictionary
    hasChecksum := descriptor / 4 % 2 = 1 }

/-- What the bytes from `pos` to `stop` show of the start of a frame. -/
def readFrameStart (bytes : ByteArray) (pos stop : Nat) : Except Fault FrameStart := do
  let there := stop - pos
  if there < 5 then
    let head := (bytes.extract pos (pos + min there 4)).data.toList
    if isMagicStart head then return .cut else throw .unknownFrame
  let number := numberAt bytes pos 4
  if isSkippable number then
    if there < 8 then return .cut
    return .skippable (numberAt bytes (pos + 4) 4) 8
  if number ≠ magic then return .other number
  let descriptor := numberAt bytes (pos + 4) 1
  let widths := FieldWidths.ofDescriptor descriptor
  let size := 5 + widths.window + widths.dictionary + widths.content
  if there < size then return .cut
  return .frame (← readFields bytes (pos + 5) descriptor widths) size

end PakIndex.Zstd
