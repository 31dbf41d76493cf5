import PakIndex.Zstd.Fse

/-!
# Prefix codes of literals

* `Zstd.PrefixTable`: for every number of `log` bits the symbol whose word starts it.
* `Zstd.PrefixTable.ofWeights`: the table given by the weights of all symbols but the last.
* `Zstd.readPrefixTable`: a table as it is written.
* `Zstd.PrefixTable.decode`: the symbols that a bit string holds.
-/

namespace PakIndex.Zstd

/-- For every number of `log` bits the symbol whose word starts it and the width of that word. -/
structure PrefixTable where
  log : Nat
  words : Array (UInt8 × Nat)

namespace PrefixTable

/-- The largest number of bits of a word. -/
def maxLog : Nat := 12

/-- The room that a symbol of some weight takes in a table. -/
def room (weight : Nat) : Nat := if weight = 0 then 0 else 1 <<< (weight - 1)

/-- The table given by the weights of all symbols but the last, whose weight fills the table up to a
power of two. Lighter symbols stand first. -/
def ofWeights (weights : List Nat) : Except Fault PrefixTable := do
  let total := weights.foldl (fun sum weight => sum + room weight) 0
  if total = 0 then throw .corrupted
  let log := total.log2 + 1
  if maxLog < log then throw .corrupted
  let rest := 1 <<< log - total
  if 1 <<< rest.log2 ≠ rest then throw .corrupted
  let weights := weights ++ [rest.log2 + 1]
  let light := weights.count 1
  if light < 2 ∨ light % 2 = 1 ∨ weights.any (maxLog < ·) then throw .corrupted
  let symbols := weights.zipIdx
  let words := (List.range log).flatMap fun w =>
    (symbols.filter fun p => p.1 == w + 1).flatMap fun p =>
      List.replicate (room p.1) (UInt8.ofNat p.2, log + 1 - p.1)
  return ⟨log, words.toArray⟩

/-- `count` symbols, appended to `out`. -/
def decodeFrom (t : PrefixTable) : (count : Nat) → Backward → (out : ByteArray) →
    ByteArray × Backward
  | 0, bits, out => (out, bits)
  | count + 1, bits, out =>
    let (symbol, width) := t.words.getD (bits.peekExtra t.log) (0, 0)
    decodeFrom t count (bits.skip width) (out.push symbol)

/-- The `count` symbols that a bit string holds exactly, appended to `out`. -/
def decode (t : PrefixTable) (bytes : ByteArray) (count : Nat) (out : ByteArray) :
    Except Fault ByteArray :=
  match Backward.ofBytes? bytes with
  | none => .error .corrupted
  | some bits =>
    let (out, bits) := t.decodeFrom count bits out
    if bits.left = 0 then .ok out else .error .corrupted

end PrefixTable

/-! ## Written tables -/

/-- Symbols decoded by two alternating walks until the bits are used up; `found` are those so far,
last first. -/
def decodeWeights (t : StateTable) :
    (fuel : Nat) → (s₁ s₂ : State) → Backward → (found : List Nat) → Option (List Nat)
  | 0, _, _, _, _ => none
  | fuel + 1, s₁, s₂, bits, found =>
    let found := s₁.symbol :: found
    let (s₁', bits) := t.next s₁ bits
    if bits.left < 0 then some (s₂.symbol :: found).reverse
    else decodeWeights t fuel s₂ s₁' bits found

/-- The two halves of a byte, the high one first. -/
def halves (b : UInt8) : List Nat := [b.toNat / 16, b.toNat % 16]

/-- The table written at the start of `bytes`, and how many bytes it takes. The weights are either
written as half bytes or coded by a state table. -/
def readPrefixTable (bytes : ByteArray) : Except Fault (PrefixTable × Nat) := do
  let some first := bytes[0]? | throw .corrupted
  let first := first.toNat
  if 128 ≤ first then
    let count := first - 127
    let size := (count + 1) / 2
    if bytes.size < 1 + size then throw .corrupted
    let weights := ((bytes.extract 1 (1 + size)).data.toList.flatMap halves).take count
    return (← PrefixTable.ofWeights weights, 1 + size)
  else
    if bytes.size < 1 + first then throw .corrupted
    let coded := bytes.extract 1 (1 + first)
    let (table, used) ← readTable coded 255 6
    let some bits := Backward.ofBytes? (coded.extract used coded.size) | throw .corrupted
    let (s₁, bits) := table.start bits
    let (s₂, bits) := table.start bits
    if bits.left < 0 then throw .corrupted
    let some weights := decodeWeights table 254 s₁ s₂ bits [] | throw .corrupted
    return (← PrefixTable.ofWeights weights, 1 + first)

end PakIndex.Zstd
