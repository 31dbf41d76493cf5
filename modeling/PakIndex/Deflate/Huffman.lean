import PakIndex.Bits

/-!
# Prefix codes of a deflate stream

* `Deflate.Fault`: why a stream cannot be decoded.
* `Deflate.Code`: a canonical prefix code, given by how many words each length has and by the
  symbols in the order of their words.
* `Deflate.Code.ofLengths`: the code in which every symbol has a word of a given length.
* `Deflate.Code.isComplete`, `Deflate.Code.isUsable`: whether a block may bring a code.
* `Deflate.Code.next`: the symbol whose word comes next.
-/

namespace PakIndex.Deflate

/-- Why a stream cannot be decoded. -/
inductive Fault
  /-- The bits contradict the format. -/
  | corrupt
  /-- The bytes end before the stream does. -/
  | incomplete
  deriving Repr, DecidableEq, Inhabited

/-- A canonical prefix code: words of one length are consecutive numbers, and longer words follow
shorter ones. -/
structure Code where
  /-- How many words have length 1, 2 and so on, up to the longest. -/
  counts : List Nat
  /-- The symbols in the order of their words. -/
  symbols : Array Nat

namespace Code

/-- The code in which symbol `i` has a word of length `lengths[i]`; none where that is zero. -/
def ofLengths (lengths : List Nat) : Code :=
  let used := lengths.zipIdx
  let longest := lengths.foldl max 1
  let ofLength (n : Nat) := (used.filter fun p => p.1 == n).map (·.2)
  let groups := (List.range longest).map fun n => ofLength (n + 1)
  ⟨groups.map List.length, groups.flatten.toArray⟩

/-- How much room the words take, where a word as long as the longest takes one. -/
def weight (c : Code) : Nat :=
  c.counts.foldl (fun sum count => 2 * sum + count) 0

/-- Whether the words use up all room. -/
def isComplete (c : Code) : Bool := c.weight == 1 <<< c.counts.length

/-- Whether a block may bring a code: it is complete, has no word, or has one word of one bit. -/
def isUsable (c : Code) : Bool :=
  c.isComplete || c.symbols.isEmpty || (c.symbols.size == 1 && c.counts.length == 1)

/-- The symbol whose word comes next: `word` has been read so far, `first` is the first number that
could be a word of the next length and `index` the place of its symbol. -/
def search (symbols : Array Nat) (source : BitSource) :
    (counts : List Nat) → (word first index : Nat) → Option (Option Nat × BitSource)
  | [], _, _, _ => some (none, source)
  | count :: counts, word, first, index =>
    match source.bit? with
    | none => none
    | some (bit, source) =>
      let word := 2 * word + bit
      if word < first + count then some (symbols[index + (word - first)]?, source)
      else search symbols source counts word (2 * (first + count)) (index + count)

/-- The symbol whose word comes next and the source after it. That no word comes next shows once
there are as many bits as the longest word has. -/
def next (c : Code) (source : BitSource) : Except Fault (Nat × BitSource) :=
  match search c.symbols source c.counts 0 0 0 with
  | some (some symbol, rest) => .ok (symbol, rest)
  | some (none, _) => .error .corrupt
  | none => .error .incomplete

end Code

end PakIndex.Deflate
