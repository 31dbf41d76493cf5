import PakIndex.Deflate.Huffman

/-!
# The alphabets of a deflate stream

* `Deflate.lengths`, `Deflate.distances`: base and number of extra bits of the symbols that stand
  for the length and the distance of a copy.
* `Deflate.fixedLiterals`, `Deflate.fixedDistances`: the codes of blocks that bring none.
* `Deflate.dynamicCodes`: the codes at the start of a block that brings its own.
-/

namespace PakIndex.Deflate

/-- Base and number of extra bits of the length symbols, from symbol 257 on. -/
def lengths : Array (Nat × Nat) :=
  #[(3, 0), (4, 0), (5, 0), (6, 0), (7, 0), (8, 0), (9, 0), (10, 0), (11, 1), (13, 1), (15, 1),
    (17, 1), (19, 2), (23, 2), (27, 2), (31, 2), (35, 3), (43, 3), (51, 3), (59, 3), (67, 4),
    (83, 4), (99, 4), (115, 4), (131, 5), (163, 5), (195, 5), (227, 5), (258, 0)]

/-- Base and number of extra bits of the distance symbols. -/
def distances : Array (Nat × Nat) :=
  #[(1, 0), (2, 0), (3, 0), (4, 0), (5, 1), (7, 1), (9, 2), (13, 2), (17, 3), (25, 3), (33, 4),
    (49, 4), (65, 5), (97, 5), (129, 6), (193, 6), (257, 7), (385, 7), (513, 8), (769, 8),
    (1025, 9), (1537, 9), (2049, 10), (3073, 10), (4097, 11), (6145, 11), (8193, 12), (12289, 12),
    (16385, 13), (24577, 13)]

/-- The order in which the lengths of the words for lengths are written. -/
def lengthOrder : List Nat :=
  [16, 17, 18, 0, 8, 7, 9, 6, 10, 5, 11, 4, 12, 3, 13, 2, 14, 1, 15]

/-- The next `width` bits as a number. -/
def number (source : BitSource) (width : Nat) : Except Fault (Nat × BitSource) :=
  match source.number? width with
  | some r => .ok r
  | none => .error .incomplete

/-- The value of a symbol with base and extra bits in `table`. -/
def extended (table : Array (Nat × Nat)) (symbol : Nat) (source : BitSource) :
    Except Fault (Nat × BitSource) :=
  match table[symbol]? with
  | none => .error .corrupt
  | some (base, width) =>
    match number source width with
    | .error e => .error e
    | .ok (extra, source) => .ok (base + extra, source)

/-! ## Fixed codes -/

/-- The literal and length code of blocks that bring none. -/
def fixedLiterals : Code :=
  .ofLengths (List.replicate 144 8 ++ List.replicate 112 9 ++ List.replicate 24 7
    ++ List.replicate 8 8)

/-- The distance code of blocks that bring none. -/
def fixedDistances : Code := .ofLengths (List.replicate 32 5)

/-! ## Codes of a block's own -/

/-- `count` numbers of three bits. -/
def smallNumbers (source : BitSource) : (count : Nat) → Except Fault (List Nat × BitSource)
  | 0 => .ok ([], source)
  | count + 1 =>
    match number source 3 with
    | .error e => .error e
    | .ok (n, source) =>
      match smallNumbers source count with
      | .error e => .error e
      | .ok (ns, source) => .ok (n :: ns, source)

/-- Word lengths written by the code `c`, until there are `total`; those read so far are `found`,
last first. Symbol 16 repeats the last length, 17 and 18 repeat zero. -/
def wordLengths (c : Code) (total : Nat) :
    (fuel : Nat) → BitSource → (found : List Nat) → (count : Nat) →
      Except Fault (List Nat × BitSource)
  | 0, _, _, _ => .error .incomplete
  | fuel + 1, source, found, count =>
    if count = total then .ok (found.reverse, source)
    else if total < count then .error .corrupt
    else
      match c.next source with
      | .error e => .error e
      | .ok (symbol, source) =>
        let repeated (value base width : Nat) :=
          match number source width with
          | .error e => .error e
          | .ok (extra, source) =>
            wordLengths c total fuel source (List.replicate (base + extra) value ++ found)
              (count + base + extra)
        if symbol < 16 then wordLengths c total fuel source (symbol :: found) (count + 1)
        else if symbol = 16 then
          match found with
          | [] => .error .corrupt
          | last :: _ => repeated last 3 2
        else if symbol = 17 then repeated 0 3 3
        else repeated 0 11 7

/-- The literal and length code and the distance code at the start of a block that brings them. -/
def dynamicCodes (source : BitSource) : Except Fault (Code × Code × BitSource) := do
  let (literals, source) ← number source 5
  let (distances, source) ← number source 5
  let (small, source) ← number source 4
  let literals := literals + 257
  let distances := distances + 1
  if 286 < literals ∨ 30 < distances then throw .corrupt
  let (ns, source) ← smallNumbers source (small + 4)
  let written := lengthOrder.zip ns
  let code := Code.ofLengths ((List.range 19).map fun symbol => (written.lookup symbol).getD 0)
  if ¬ code.isComplete then throw .corrupt
  let total := literals + distances
  let (ns, source) ← wordLengths code total (total + 1) source [] 0
  let literalCode := Code.ofLengths (ns.take literals)
  let distanceCode := Code.ofLengths (ns.drop literals)
  if ¬ literalCode.isUsable ∨ ¬ distanceCode.isUsable then throw .corrupt
  return (literalCode, distanceCode, source)

end PakIndex.Deflate
