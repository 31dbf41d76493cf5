import PakIndex.Bytes

/-!
# Text of byte strings

* `lossyText`: the text of a byte string that need not be UTF-8; every maximal invalid part
  becomes one replacement character.
* `hexDigits`: lower-case hexadecimal numbers of a least width.
-/

namespace PakIndex

/-! ## Well-formed UTF-8 sequences -/

/-- A continuation byte. -/
def isContinuation (b : UInt8) : Bool := 0x80 ≤ b && b ≤ 0xBF

/-- The number of continuation bytes that a leading byte asks for and the range in which the first
of them must lie; none if the byte starts no sequence. -/
def leadingByte (b : UInt8) : Option (Nat × UInt8 × UInt8) :=
  if b ≤ 0x7F then some (0, 0x80, 0xBF)
  else if b < 0xC2 then none
  else if b ≤ 0xDF then some (1, 0x80, 0xBF)
  else if b = 0xE0 then some (2, 0xA0, 0xBF)
  else if b = 0xED then some (2, 0x80, 0x9F)
  else if b ≤ 0xEF then some (2, 0x80, 0xBF)
  else if b = 0xF0 then some (3, 0x90, 0xBF)
  else if b ≤ 0xF3 then some (3, 0x80, 0xBF)
  else if b = 0xF4 then some (3, 0x80, 0x8F)
  else none

/-- The length of the longest part of `bs` that begins a sequence asking for `count` more bytes,
the next of them in `[lo, hi]`. -/
def continuationLength : (count : Nat) → (lo hi : UInt8) → Bytes → Nat
  | 0, _, _, _ => 0
  | _ + 1, _, _, [] => 0
  | count + 1, lo, hi, b :: bs =>
    if lo ≤ b && b ≤ hi then 1 + continuationLength count 0x80 0xBF bs else 0

/-- The code point with leading byte `b` and continuation bytes `rest`. -/
def codePoint (b : UInt8) (rest : Bytes) : Char :=
  let lead := match rest.length with
    | 0 => b.toNat
    | 1 => b.toNat % 32
    | 2 => b.toNat % 16
    | _ => b.toNat % 8
  Char.ofNat (rest.foldl (fun n c => n * 64 + c.toNat % 64) lead)

/-- The characters of `bs`, a replacement character for every maximal invalid part. Skipping
`skip` bytes first. -/
def lossyChars : (skip : Nat) → Bytes → List Char
  | _, [] => []
  | skip + 1, _ :: bs => lossyChars skip bs
  | 0, b :: bs =>
    match leadingByte b with
    | none => '\uFFFD' :: lossyChars 0 bs
    | some (count, lo, hi) =>
      let got := continuationLength count lo hi bs
      if got = count then codePoint b (bs.take count) :: lossyChars count bs
      else '\uFFFD' :: lossyChars got bs

/-- The text of `bs`: `bs` itself when it is UTF-8. -/
def lossyText (bs : Bytes) : String :=
  match String.fromUTF8? bs.toByteArray with
  | some s => s
  | none => String.ofList (lossyChars 0 bs)

/-- The UTF-8 bytes of a text. -/
def utf8 (s : String) : Bytes := s.toByteArray.data.toList

/-! ## Numbers -/

/-- `n` in lower-case hexadecimal with at least `width` digits. -/
def hexDigits (width n : Nat) : String :=
  let digits := Nat.toDigits 16 n
  String.ofList (List.replicate (width - digits.length) '0' ++ digits)

end PakIndex
