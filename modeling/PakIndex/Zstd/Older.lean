import PakIndex.Zstd.Header

/-!
# Frames of older versions

Before the format was settled there were versions with other numbers and headers. Of these the last
four are read, but only blocks that are stored as they are or as a repeated byte; the first ones are
refused.

* `Zstd.OlderVersion`: the versions that are read.
* `Zstd.OlderVersion.readHeader`: the header of a frame.
* `Zstd.OlderBlock`: what a block says about itself.
-/

namespace PakIndex.Zstd

/-- Whether a number starts a frame of one of the first versions. -/
def isOutdated (number : Nat) : Bool := [0x1EB52FFD, 0xFD2FB522, 0xFD2FB523].contains number

/-- The versions that are read. -/
inductive OlderVersion
  | v04
  | v05
  | v06
  | v07
  deriving Repr, DecidableEq, Inhabited

namespace OlderVersion

/-- The version of a frame that starts with a number. -/
def ofMagic? : Nat → Option OlderVersion
  | 0xFD2FB524 => some v04
  | 0xFD2FB525 => some v05
  | 0xFD2FB526 => some v06
  | 0xFD2FB527 => some v07
  | _ => none

/-- The size of a header with the given descriptor. -/
def headerSize (v : OlderVersion) (descriptor : Nat) : Nat :=
  match v with
  | v04 | v05 => 5
  | v06 => 5 + [0, 1, 2, 8].getD (descriptor / 64) 0
  | v07 =>
    let single := descriptor / 32 % 2
    let content := if descriptor / 64 = 0 then single else 1 <<< (descriptor / 64)
    5 + (1 - single) + [0, 1, 2, 4].getD (descriptor % 4) 0 + content

/-- Whether a descriptor has bits that are not in use. -/
def hasUnusedBits (v : OlderVersion) (descriptor : Nat) : Bool :=
  match v with
  | v04 | v05 => 16 ≤ descriptor
  | v06 => descriptor / 32 % 2 == 1
  | v07 => descriptor / 8 % 2 == 1

/-- The largest window that the last version allows. -/
def maxWindow : Nat := 0x8000000

/-- The size of the header of the frame at `pos`, if the bytes up to `stop` hold all of it. -/
def readHeader (v : OlderVersion) (bytes : ByteArray) (pos stop : Nat) :
    Except Fault (Option Nat) := do
  let descriptor := numberAt bytes (pos + 4) 1
  let size := v.headerSize descriptor
  if stop < pos + size then return none
  if v.hasUnusedBits descriptor then throw .unsupportedParameter
  if v = v07 then
    let window := numberAt bytes (pos + 5) 1
    let log := window / 8 + 10
    let single := descriptor / 32 % 2 = 1
    if ¬ single ∧ maxWindow < 1 <<< log + (1 <<< log) / 8 * (window % 8) then throw .unsupportedParameter
    let width := [0, 1, 2, 4].getD (descriptor % 4) 0
    if numberAt bytes (pos + (if single then 5 else 6)) width ≠ 0 then throw .dictionaryMismatch
  return some size

end OlderVersion

/-- What a block of an older version says about itself. -/
inductive OlderBlock
  | coded (size : Nat)
  | plain (size : Nat)
  | repeated (size : Nat)
  | ending

/-- The header of a block: two bits for its kind, and in the low 19 bits its size, the highest byte
first. A block without stored bytes ends the frame. -/
def OlderBlock.read (bytes : ByteArray) (pos : Nat) : OlderBlock :=
  let first := numberAt bytes pos 1
  let size := first % 8 * 0x10000 + numberAt bytes (pos + 1) 1 * 0x100 + numberAt bytes (pos + 2) 1
  match first / 64, size with
  | 2, size => .repeated size
  | 3, _ | _, 0 => .ending
  | 1, size => .plain size
  | _, size => .coded size

end PakIndex.Zstd
