import PakIndex.Text

/-!
# Names of files

* `normalizeByte`, `normalizePath`: the form in which names are compared. Case counts only outside
  ASCII, and both separators are one.
* `namesMatch`: equality of names in that form.
* `segments`: the nonempty runs between separators.
-/

namespace PakIndex

/-- The separator of normalized names. -/
def separator : UInt8 := 0x2F

/-- The other separator, which names and paths may use. -/
def altSeparator : UInt8 := 0x5C

/-- Either separator. -/
def isSeparator (b : UInt8) : Bool := b == separator || b == altSeparator

/-- One byte of a name in normalized form. -/
def normalizeByte (b : UInt8) : UInt8 :=
  if b = altSeparator then separator
  else if 0x41 ≤ b ∧ b ≤ 0x5A then b + 0x20
  else b

/-- One character of a path in normalized form. -/
def normalizeChar (c : Char) : Char := if c = '\\' then '/' else c.toLower

/-- A path in normalized form. -/
def normalizePath (path : String) : String := path.map normalizeChar

/-- A name in normalized form. -/
def normalizeName (name : Bytes) : Bytes := name.map normalizeByte

/-- Whether two names are equal in normalized form. -/
def namesMatch (a b : Bytes) : Bool :=
  a.length == b.length && (a.zip b).all fun (x, y) => normalizeByte x == normalizeByte y

/-! ## Segments -/

/-- `run`, which was collected backwards, in front of `rest` unless it is empty. -/
def consRun (run : Bytes) (rest : List Bytes) : List Bytes :=
  if run.isEmpty then rest else run.reverse :: rest

/-- The nonempty runs between the separators of a name whose bytes up to here are `run`. -/
def segmentsAfter (run : Bytes) : Bytes → List Bytes
  | [] => consRun run []
  | b :: bs =>
    if isSeparator b then consRun run (segmentsAfter [] bs) else segmentsAfter (b :: run) bs

/-- The nonempty runs between the separators of a name. -/
def segments (name : Bytes) : List Bytes := segmentsAfter [] name

/-- The normalized segments that a path asks for. -/
def querySegments (path : String) : List Bytes := (segments (utf8 path)).map normalizeName

end PakIndex
