import PakIndex.Stream
import PakIndex.Layout.Trailer

/-!
# The search for the trailer

* `LocatedTrailer`: a trailer and where it stands.
* `locate`: the search. It reads the file backwards in windows and stops at the first signature
  it meets; the comment of that trailer must reach exactly to the end of the file.
* `lastSignature`: the last position in a window at which the signature stands.
-/

namespace PakIndex

/-- The size of the largest archive, 2 GiB. -/
def maxArchiveSize : Nat := 0x80000000

/-- The length of the longest comment. -/
def maxCommentLength : Nat := 0xFFFF

/-- How far each step of the search goes back. -/
def searchWindow : Nat := 256

/-- A trailer and where it stands. -/
structure LocatedTrailer where
  record : Trailer
  offset : Nat
  fileSize : Nat
  deriving Repr, DecidableEq, Inhabited

/-- The last position among the first `count` of `window` at which the trailer signature stands. -/
def lastSignature (window : Bytes) : (count : Nat) → Except Error (Option Nat)
  | 0 => .ok none
  | count + 1 =>
    match window.cut count 4 with
    | .error e => .error e
    | .ok bs => if bs = Trailer.signature then .ok (some count) else lastSignature window count

/-- The last position at or after `floor` and before `bound` at which the trailer signature stands
in `s`, with the bytes of the trailer there, looked for in windows of `width` bytes. Each window
also shows the bytes of one trailer less one after its end, so that a trailer at its last position
is seen whole. -/
def searchBack (s : Stream) (width floor bound : Nat) : Except Error (Option (Nat × Bytes)) :=
  if _h : bound ≤ floor ∨ width = 0 then .ok none
  else
    let start := max (bound - width) floor
    match s.read start (min (bound + Trailer.fixedSize - 1) s.size - start) with
    | .error e => .error e
    | .ok window =>
      match lastSignature window (min bound (s.size - Trailer.fixedSize + 1) - start) with
      | .error e => .error e
      | .ok (some i) => (window.cut i Trailer.fixedSize).map fun bs => some (start + i, bs)
      | .ok none => searchBack s width floor start
termination_by bound

/-- The trailer of an archive. -/
def locate (s : Stream) : Except Error LocatedTrailer := do
  if s.size > maxArchiveSize then throw (.fileTooLarge s.size)
  if s.size < Trailer.fixedSize then throw (.fileTooSmall s.size)
  let floor := s.size - (Trailer.fixedSize + maxCommentLength)
  match ← searchBack s searchWindow floor s.size with
  | none => throw .noTrailerFound
  | some (pos, bs) =>
    let record ← Trailer.parse bs
    let expected := s.size - pos - Trailer.fixedSize
    if record.commentLength.toNat ≠ expected then
      throw (.commentLengthMismatch record.commentLength expected)
    return { record, offset := pos, fileSize := s.size }

end PakIndex
