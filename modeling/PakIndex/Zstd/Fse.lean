import PakIndex.Bits
import PakIndex.Zstd.Fault
import PakIndex.Zstd.Backward

/-!
# State tables

Symbols are coded by walking through the states of a table: every state stands for a symbol, and the
next state is a base plus some bits.

* `Zstd.StateTable`: the states.
* `Zstd.StateTable.ofShares`: the table in which every symbol has a given share of the states.
* `Zstd.readSharesFrom`: the shares as they are written.
-/

namespace PakIndex.Zstd

/-- A state: its symbol, and the next state as a base and a number of bits to add. -/
structure State where
  symbol : Nat
  width : Nat
  base : Nat
  deriving Inhabited

/-- A table of `2 ^ log` states. -/
structure StateTable where
  log : Nat
  states : Array State

namespace StateTable

/-- The state with a number. -/
def get (t : StateTable) (n : Nat) : State := t.states.getD n ⟨0, 0, 0⟩

/-- The first state of a walk and the bits after it. -/
def start (t : StateTable) (bits : Backward) : State × Backward :=
  let (n, bits) := bits.take t.log
  (t.get n, bits)

/-- The state after `s` and the bits after it. -/
def next (t : StateTable) (s : State) (bits : Backward) : State × Backward :=
  let (n, bits) := bits.take s.width
  (t.get (s.base + n), bits)

/-- The table in which one symbol has the only state. -/
def constant (symbol : Nat) : StateTable := ⟨0, #[⟨symbol, 0, 0⟩]⟩

/-- The symbol of every state, where symbol `i` has `shares[i]` states. A share of `-1` is a single
state at the end of the table; the others are spread over the rest by a fixed stride. -/
def spread (log : Nat) (shares : List Int) : Array Nat :=
  let size := 1 <<< log
  let symbols := shares.zipIdx
  let rare := (symbols.filter fun p => p.1 == -1).map (·.2)
  let common := symbols.flatMap fun p => List.replicate p.1.toNat p.2
  let stride := size / 2 + size / 8 + 3
  let visited := (List.range size).map fun k => k * stride % size
  let free := visited.filter (· < size - rare.length)
  let placed := (free.zip common) ++ (rare.zipIdx.map fun p => (size - 1 - p.2, p.1))
  placed.foldl (fun table p => table.setIfInBounds p.1 p.2) (.replicate size 0)

/-- The states for the given symbols. The states of one symbol have consecutive numbers, from its
share on, which tell width and base. -/
def number (log : Nat) : (symbols : List Nat) → (numbers : Array Nat) → (done : Array State) →
    Array State
  | [], _, done => done
  | symbol :: rest, numbers, done =>
    let n := numbers.getD symbol 1
    let width := log - n.log2
    number log rest (numbers.setIfInBounds symbol (n + 1))
      (done.push ⟨symbol, width, n <<< width - 1 <<< log⟩)

/-- The table in which symbol `i` has `shares[i]` states, or a single rare one for `-1`. -/
def ofShares (log : Nat) (shares : List Int) : StateTable :=
  let numbers := shares.map fun p => if p = -1 then 1 else p.toNat
  ⟨log, number log (spread log shares).toList numbers.toArray #[]⟩

end StateTable

/-! ## Written shares -/

/-- A share, written in few bits if it must be small, while `rest - 1` states are still to be shared
out. -/
def readShare (source : BitSource) (rest : Nat) : Option (Int × BitSource) := do
  let width := rest.log2
  let short := 2 <<< width - 1 - rest
  let (low, source) ← source.number? width
  if low < short then return (low - 1, source)
  let (high, source) ← source.number? 1
  let value := low + high <<< width
  return ((if high = 1 then value - short else value) - 1, source)

/-- The number of further symbols without states, which is written in steps of up to three. -/
def readZeros : (fuel : Nat) → BitSource → Option (Nat × BitSource)
  | 0, _ => none
  | fuel + 1, source => do
    let (n, source) ← source.number? 2
    if n < 3 then return (n, source)
    let (more, source) ← readZeros fuel source
    return (n + more, source)

/-- The shares from the next symbol on until all states are shared out; `found` are those so far,
last first, and `count` is their number. -/
def readSharesFrom (maxSymbol : Nat) :
    (fuel : Nat) → BitSource → (rest count : Nat) → (found : List Int) →
      Option (List Int × BitSource)
  | 0, _, _, _, _ => none
  | fuel + 1, source, rest, count, found => do
    if rest = 1 then return (found.reverse, source)
    if maxSymbol < count then none
    let (share, source) ← readShare source rest
    let taken := if share = -1 then 1 else share.toNat
    if rest ≤ taken then none
    if share = 0 then
      let (zeros, source) ← readZeros (maxSymbol + 2) source
      readSharesFrom maxSymbol fuel source rest (count + 1 + zeros)
        (List.replicate (zeros + 1) 0 ++ found)
    else readSharesFrom maxSymbol fuel source (rest - taken) (count + 1) (share :: found)

/-- The table written at the start of `bytes`, and how many bytes it takes. -/
def readTable (bytes : ByteArray) (maxSymbol maxLog : Nat) : Except Fault (StateTable × Nat) :=
  let head := (bytes.extract 0 1024).data.toList
  let source : BitSource := ⟨head, 0⟩
  let result : Option (StateTable × Nat) := do
    let (field, source) ← source.number? 4
    let log := field + 5
    if maxLog < log then none
    let (shares, source) ← readSharesFrom maxSymbol (maxSymbol + 3) source (1 <<< log + 1) 0 []
    if maxSymbol + 1 < shares.length then none
    return (.ofShares log shares, head.length - source.align.bytes.length)
  match result with
  | some r => .ok r
  | none => .error .corrupted

end PakIndex.Zstd
