import PakIndex.Toml.Value
import PakIndex.Toml.Quoted

/-!
# Numbers and times of a TOML document

* `Toml.readInteger`, `Toml.readFloat`, `Toml.readDateTime`: the three kinds of values that start
  with a digit or a sign.
* `Toml.readNumber`: whichever of them stands there.
-/

namespace PakIndex.Toml

/-- More digits after the first, with single underscores between digits. -/
def readDigits (isDigit : Char → Bool) : Reader (List Char)
  | '_' :: c :: s =>
    if isDigit c then (readDigits isDigit s).map fun (ds, s) => (c :: ds, s) else none
  | c :: s =>
    if isDigit c then (readDigits isDigit s).map fun (ds, s) => (c :: ds, s)
    else if c = '_' then none
    else some ([], c :: s)
  | [] => some ([], [])

/-- Digits with single underscores between them. -/
def readDigits₁ (isDigit : Char → Bool) : Reader (List Char)
  | c :: s => if isDigit c then (readDigits isDigit s).map fun (ds, s) => (c :: ds, s) else none
  | [] => none

/-- The number of some digits to a base. -/
def numberOf (base : Nat) (digits : List Char) : Nat :=
  digits.foldl (fun n c => base * n + (hexValue? c).getD 0) 0

/-- A sign, if there is one: whether it is a minus. -/
def readSign : List Char → Bool × List Char
  | '-' :: s => (true, s)
  | '+' :: s => (false, s)
  | s => (false, s)

/-- Decimal digits that do not start with a superfluous zero. -/
def readDecimal : Reader (List Char)
  | '0' :: s => some (['0'], s)
  | s => readDigits₁ Char.isDigit s

/-! ## Integers -/

/-- A digit below eight. -/
def isOctal (c : Char) : Bool := '0' ≤ c && c ≤ '7'

/-- A digit below two. -/
def isBinary (c : Char) : Bool := c == '0' || c == '1'

/-- A hexadecimal digit. -/
def isHex (c : Char) : Bool := (hexValue? c).isSome

/-- An integer of 64 bits. -/
def readInteger (s : List Char) : Option (Int × List Char) := do
  let unsigned (base : Nat) (isDigit : Char → Bool) (s : List Char) : Option (Int × List Char) := do
    let (digits, s) ← readDigits₁ isDigit s
    let n := numberOf base digits
    if n < 0x8000000000000000 then some (n, s) else none
  match s with
  | '0' :: 'x' :: s => unsigned 16 isHex s
  | '0' :: 'o' :: s => unsigned 8 isOctal s
  | '0' :: 'b' :: s => unsigned 2 isBinary s
  | s =>
    let (negative, s) := readSign s
    let (digits, s) ← readDecimal s
    let n := numberOf 10 digits
    if negative then (if n ≤ 0x8000000000000000 then some (-n, s) else none)
    else if n < 0x8000000000000000 then some (n, s) else none

/-! ## Floats -/

/-- Whether `mantissa * 10 ^ exponent` is rounded to infinity. -/
def overflows (mantissa : Nat) (exponent : Int) : Bool :=
  let size := (Nat.toDigits 10 mantissa).length + exponent
  let bound : Nat := 1 <<< 1024 - 1 <<< 970
  if mantissa = 0 ∨ size < 300 then false
  else if 320 < size then true
  else if 0 ≤ exponent then bound ≤ mantissa * Nat.pow 10 exponent.toNat
  else bound * Nat.pow 10 (-exponent).toNat ≤ mantissa

/-- The digits after a point, if there is one. -/
def readFraction : Reader (Option (List Char))
  | '.' :: s => (readDigits₁ Char.isDigit s).map fun (ds, s) => (some ds, s)
  | s => some (none, s)

/-- An exponent, if there is one. -/
def readExponent : Reader (Option Int)
  | c :: s =>
    if c = 'e' ∨ c = 'E' then
      let (negative, s) := readSign s
      (readDigits₁ Char.isDigit s).map fun (ds, s) =>
        (some (if negative then -(numberOf 10 ds : Int) else numberOf 10 ds), s)
    else some (none, c :: s)
  | [] => some (none, [])

/-- A float. Only a number that is too large is refused, not one that is too small. -/
def readFloat (s : List Char) : Option (String × List Char) :=
  let (negative, t) := readSign s
  match t with
  | 'i' :: 'n' :: 'f' :: rest => some (if negative then "-inf" else "inf", rest)
  | 'n' :: 'a' :: 'n' :: rest => some ("nan", rest)
  | t => do
    let (whole, t) ← readDecimal t
    let (fraction, t) ← readFraction t
    let (exponent, t) ← readExponent t
    if fraction.isNone ∧ exponent.isNone then none
    let fraction := fraction.getD []
    if ¬ negative ∧ overflows (numberOf 10 (whole ++ fraction)) (exponent.getD 0 - fraction.length)
    then none
    some (.ofList (s.take (s.length - t.length)), t)

/-! ## Dates and times -/

/-- A number of exactly two digits in a range. -/
def readTwo (lo hi : Nat) : Reader Nat
  | a :: b :: s =>
    let n := numberOf 10 [a, b]
    if a.isDigit ∧ b.isDigit ∧ lo ≤ n ∧ n ≤ hi then some (n, s) else none
  | _ => none

/-- The number of days of a month. -/
def daysOf (year month : Nat) : Nat :=
  let isLeap := year % 4 = 0 ∧ (year % 100 ≠ 0 ∨ year % 400 = 0)
  if month = 2 then (if isLeap then 29 else 28)
  else if month ∈ [4, 6, 9, 11] then 30
  else 31

/-- What is left after a date. -/
def skipDate : List Char → Option (List Char)
  | a :: b :: c :: d :: '-' :: s => do
    if ¬ [a, b, c, d].all Char.isDigit then none
    let (month, s) ← readTwo 1 12 s
    let s ← expect '-' s
    let (_, s) ← readTwo 1 (daysOf (numberOf 10 [a, b, c, d]) month) s
    return s
  | _ => none

/-- What is left after a time of day. -/
def skipTime (s : List Char) : Option (List Char) := do
  let (_, s) ← readTwo 0 23 s
  let s ← expect ':' s
  let (_, s) ← readTwo 0 59 s
  let s ← expect ':' s
  let (_, s) ← readTwo 0 60 s
  match s with
  | '.' :: c :: rest => return if c.isDigit then rest.dropWhile Char.isDigit else s
  | s => return s

/-- What is left after an offset from universal time, if there is one. -/
def skipOffset : List Char → Option (List Char)
  | 'Z' :: s | 'z' :: s => some s
  | '+' :: s | '-' :: s => do
    let (_, s) ← readTwo 0 23 s
    let s ← expect ':' s
    let (_, s) ← readTwo 0 59 s
    return s
  | s => some s

/-- What is left after a date, a time of day or both. -/
def skipDateTime (s : List Char) : Option (List Char) :=
  match s with
  | _ :: _ :: ':' :: _ => skipTime s
  | _ => do
    let s ← skipDate s
    match s with
    | c :: t =>
      if c = 'T' ∨ c = 't' ∨ (c = ' ' ∧ t.head?.any Char.isDigit) then skipOffset (← skipTime t)
      else return s
    | [] => return s

/-- A date, a time of day or both. -/
def readDateTime (s : List Char) : Option (String × List Char) :=
  (skipDateTime s).map fun rest => (.ofList (s.take (s.length - rest.length)), rest)

/-- The value that starts with a digit or a sign. -/
def readNumber (s : List Char) : Option (Value × List Char) :=
  match readDateTime s with
  | some (text, s) => some (.dateTime text, s)
  | none =>
    match readFloat s with
    | some (text, s) => some (.float text, s)
    | none => (readInteger s).map fun (n, s) => (.integer n, s)

end PakIndex.Toml
