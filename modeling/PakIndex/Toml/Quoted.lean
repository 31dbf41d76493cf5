import PakIndex.Toml.Scan

/-!
# Strings and keys of a TOML document

* `Toml.readQuoted`: a string in quotation marks or apostrophes, on one line or on many.
* `Toml.readKey`: the parts of a dotted key.
-/

namespace PakIndex.Toml

/-- The value of a hexadecimal digit. -/
def hexValue? (c : Char) : Option Nat :=
  if '0' ≤ c ∧ c ≤ '9' then some (c.toNat - 48)
  else if 'a' ≤ c ∧ c ≤ 'f' then some (c.toNat - 87)
  else if 'A' ≤ c ∧ c ≤ 'F' then some (c.toNat - 55)
  else none

/-- The character with a given hexadecimal number, if there is one. -/
def charOfHex? (digits : List Char) : Option Char := do
  let values ← digits.mapM hexValue?
  let n := values.foldl (fun n d => 16 * n + d) 0
  if n.isValidChar then some (.ofNat n) else none

/-- The character that a letter stands for after a backslash. -/
def escaped? : Char → Option Char
  | 'b' => some '\x08'
  | 't' => some '\t'
  | 'n' => some '\n'
  | 'f' => some '\x0c'
  | 'r' => some '\r'
  | '"' => some '"'
  | '\\' => some '\\'
  | _ => none

/-- The character after a backslash and what is left after it. -/
def readEscape : Reader Char
  | 'u' :: a :: b :: c :: d :: s => (charOfHex? [a, b, c, d]).map (·, s)
  | 'U' :: a :: b :: c :: d :: e :: f :: g :: h :: s =>
    (charOfHex? [a, b, c, d, e, f, g, h]).map (·, s)
  | c :: s => (escaped? c).map (·, s)
  | [] => none

theorem length_readEscape {s rest : List Char} {c : Char} (h : readEscape s = some (c, rest)) :
    rest.length < s.length := by
  unfold readEscape at h
  split at h
  all_goals
    first
    | (simp only [Option.map_eq_some_iff, Prod.mk.injEq] at h
       obtain ⟨_, _, _, rfl⟩ := h
       simp only [List.length_cons]
       omega)
    | simp at h

/-- The rest of a string in quotation marks; `text` is what was read of it, last first. -/
def readBasic (text : List Char) (s : List Char) : Option (String × List Char) :=
  match s with
  | [] => none
  | '"' :: s => some (.ofList text.reverse, s)
  | '\\' :: s =>
    match _h : readEscape s with
    | none => none
    | some (c, rest) => readBasic (c :: text) rest
  | c :: s => if isPlain c then readBasic (c :: text) s else none
termination_by s.length
decreasing_by
  · have := length_readEscape _h
    simp only [List.length_cons]
    omega
  · simp

/-- The rest of a string in apostrophes; `text` is what was read of it, last first. -/
def readLiteral (text : List Char) : List Char → Option (String × List Char)
  | [] => none
  | '\x27' :: s => some (.ofList text.reverse, s)
  | c :: s => if isPlain c then readLiteral (c :: text) s else none

/-- What is left after spaces and line ends. -/
def skipLineEnds : List Char → List Char
  | '\r' :: '\n' :: s => skipLineEnds s
  | c :: s => if isSpace c || c == '\n' then skipLineEnds s else c :: s
  | [] => []

theorem length_skipLineEnds (s : List Char) : (skipLineEnds s).length ≤ s.length := by
  fun_induction skipLineEnds s <;> simp only [List.length_cons, List.length_nil] <;> omega

/-- The rest of a string in three quotation marks; `text` is what was read of it, last first. A
backslash at the end of a line takes all blanks after it away. -/
def readBasicLines (text : List Char) (s : List Char) : Option (String × List Char) :=
  match s with
  | [] => none
  | '"' :: '"' :: '"' :: '"' :: '"' :: s => some (.ofList ('"' :: '"' :: text).reverse, s)
  | '"' :: '"' :: '"' :: '"' :: s => some (.ofList ('"' :: text).reverse, s)
  | '"' :: '"' :: '"' :: s => some (.ofList text.reverse, s)
  | '\n' :: s => readBasicLines ('\n' :: text) s
  | '\r' :: '\n' :: s => readBasicLines ('\n' :: text) s
  | '\\' :: s =>
    match skipSpaces s with
    | '\n' :: _ | '\r' :: '\n' :: _ => readBasicLines text (skipLineEnds s)
    | _ =>
      match _h : readEscape s with
      | none => none
      | some (c, rest) => readBasicLines (c :: text) rest
  | c :: s => if isPlain c then readBasicLines (c :: text) s else none
termination_by s.length
decreasing_by
  all_goals simp only [List.length_cons]
  · omega
  · omega
  · exact Nat.lt_succ_of_le (length_skipLineEnds s)
  · exact Nat.lt_succ_of_lt (length_readEscape _h)
  · omega

/-- The rest of a string in three apostrophes; `text` is what was read of it, last first. -/
def readLiteralLines (text : List Char) : List Char → Option (String × List Char)
  | [] => none
  | '\x27' :: '\x27' :: '\x27' :: '\x27' :: '\x27' :: s =>
    some (.ofList ('\x27' :: '\x27' :: text).reverse, s)
  | '\x27' :: '\x27' :: '\x27' :: '\x27' :: s => some (.ofList ('\x27' :: text).reverse, s)
  | '\x27' :: '\x27' :: '\x27' :: s => some (.ofList text.reverse, s)
  | '\n' :: s => readLiteralLines ('\n' :: text) s
  | '\r' :: '\n' :: s => readLiteralLines ('\n' :: text) s
  | c :: s => if isPlain c then readLiteralLines (c :: text) s else none

/-- What is left after a line end at the start of a string of many lines, which does not count. -/
def skipFirstLineEnd : List Char → List Char
  | '\n' :: s => s
  | '\r' :: '\n' :: s => s
  | s => s

/-- A string. -/
def readQuoted : Reader String
  | '"' :: '"' :: '"' :: s => readBasicLines [] (skipFirstLineEnd s)
  | '\x27' :: '\x27' :: '\x27' :: s => readLiteralLines [] (skipFirstLineEnd s)
  | '"' :: s => readBasic [] s
  | '\x27' :: s => readLiteral [] s
  | _ => none

/-! ## Keys -/

/-- A character that may stand in a key without quotes. -/
def isBare (c : Char) : Bool := c.isAlphanum || c == '_' || c == '-'

/-- A part of a key. -/
def readKeyPart : Reader String
  | '"' :: s => readBasic [] s
  | '\x27' :: s => readLiteral [] s
  | s =>
    let name := s.takeWhile isBare
    if name.isEmpty then none else some (.ofList name, s.dropWhile isBare)

/-- The number from which on a key has too many parts, and values are nested too deeply. -/
def depthLimit : Nat := 80

/-- The parts of a dotted key, fewer than `fuel`, and what is left after them and spaces. -/
def readKeyParts : (fuel : Nat) → Reader (List String)
  | 0, _ => none
  | fuel + 1, s => do
    let (part, s) ← readKeyPart (skipSpaces s)
    match skipSpaces s with
    | '.' :: s =>
      let (parts, s) ← readKeyParts fuel s
      return (part :: parts, s)
    | s => return ([part], s)

/-- The parts of a dotted key, all but the last and the last. -/
def readKey : Reader (List String × String) := fun s => do
  let (parts, s) ← readKeyParts (depthLimit - 1) s
  return ((parts.dropLast, ← parts.getLast?), s)

end PakIndex.Toml
