import PakIndex.Toml.Number

/-!
# TOML documents

* `Toml.readValue`: a value, nested to a limited depth.
* `Toml.Draft`: a document in the making, with the table whose lines are being read.
* `Toml.parse`: the root table of a document.
-/

namespace PakIndex.Toml

/-! ## Values -/

/-- The items of an array up to its closing bracket; a comma may follow the last one. -/
def readItems (value : Reader Value) : (fuel : Nat) → Reader (List Value)
  | 0, _ => none
  | fuel + 1, s => do
    match ← skipBlanks false s with
    | ']' :: s => return ([], s)
    | s =>
      let (item, s) ← value s
      match ← skipBlanks false s with
      | ',' :: s =>
        let (items, s) ← readItems value fuel s
        return (item :: items, s)
      | ']' :: s => return ([item], s)
      | _ => none

/-- A key and its value. -/
def readPair (value : Reader Value) (s : List Char) :
    Option ((List String × String × Value) × List Char) := do
  let ((path, key), s) ← readKey s
  let s ← expect '=' s
  let (v, s) ← value (skipSpaces s)
  return ((path, key, v), skipSpaces s)

/-- The pairs of a table in braces up to its closing brace, added to `t`. -/
def readPairs (value : Reader Value) : (fuel : Nat) → Table → Reader Table
  | 0, _, _ => none
  | fuel + 1, t, s => do
    let ((path, key, v), s) ← readPair value s
    let t ← t.add path key v
    match s with
    | ',' :: s => readPairs value fuel t s
    | '}' :: s => return (t, s)
    | _ => none

/-- A value that holds no others. -/
def readScalar : Reader Value
  | 't' :: 'r' :: 'u' :: 'e' :: s => some (.boolean true, s)
  | 'f' :: 'a' :: 'l' :: 's' :: 'e' :: s => some (.boolean false, s)
  | '"' :: s => (readQuoted ('"' :: s)).map fun (text, s) => (.string text, s)
  | '\x27' :: s => (readQuoted ('\x27' :: s)).map fun (text, s) => (.string text, s)
  | s => readNumber s

/-- A value in which others are nested to the given depth at most. -/
def readValue : (depth : Nat) → Reader Value
  | 0, s => readScalar s
  | depth + 1, s =>
    match s with
    | '[' :: s => (readItems (readValue depth) (s.length + 1) s).map fun (items, s) =>
      (.array items, s)
    | '{' :: s =>
      match skipSpaces s with
      | '}' :: s => some (.table .inline [], s)
      | s => (readPairs (readValue depth) (s.length + 1) [] s).map fun (t, s) =>
        (.table .inline t, s)
    | s => readScalar s

/-! ## Lines -/

/-- A document in the making. The table whose lines are being read is not yet part of the root. -/
structure Draft where
  root : Table := []
  /-- The table whose lines are being read. -/
  current : Table := []
  /-- Where that table belongs; the root has no place. -/
  place : Option (List String × String) := none
  /-- Whether it is one of several with a common header. -/
  isItem : Bool := false

namespace Draft

/-- The root with the current table in its place. -/
def finish (d : Draft) : Option Table :=
  match d.place with
  | none => some d.current
  | some (path, key) =>
    let bind (_ : Origin) (t : Table) : Option (Unit × Table) :=
      match d.isItem, t.lookup key with
      | true, none => some ((), t.set key (.tables [d.current]))
      | true, some (.tables items) => some ((), t.set key (.tables (items ++ [d.current])))
      | false, none => some ((), t.set key (.table .header d.current))
      | _, _ => none
    (d.root.within false bind path .header).map (·.2)

/-- The draft after a header. A table that is only implied so far is taken up again; otherwise the
header must be new, or one of several of its kind. -/
def startTable (d : Draft) (path : List String) (key : String) (isItem : Bool) : Option Draft := do
  let root ← d.finish
  let take (_ : Origin) (t : Table) : Option (Table × Table) :=
    match isItem, t.lookup key with
    | _, none => some ([], t)
    | false, some (.table .implied inner) => some (inner, t.erase key)
    | true, some (.tables _) => some ([], t)
    | _, _ => none
  let (current, root) ← root.within false take path .header
  return { root, current, place := some (path, key), isItem }

/-- The draft after a line with a key and a value. -/
def addPair (d : Draft) (path : List String) (key : String) (v : Value) : Option Draft := do
  return { d with current := ← d.current.add path key v }

end Draft

/-- The draft after a header, of which the first bracket has been read. -/
def readHeader (d : Draft) (s : List Char) : Option (Draft × List Char) := do
  match s with
  | '[' :: s =>
    let ((path, key), s) ← readKey s
    let s ← expect ']' s
    let s ← expect ']' s
    return (← d.startTable path key true, s)
  | s =>
    let ((path, key), s) ← readKey s
    let s ← expect ']' s
    return (← d.startTable path key false, s)

/-- The draft after all lines. -/
def readLines : (fuel : Nat) → Draft → List Char → Option Draft
  | 0, _, _ => none
  | fuel + 1, d, s =>
    match skipSpaces s with
    | [] => some d
    | '\n' :: s => readLines fuel d s
    | '\r' :: s => do readLines fuel d (← expect '\n' s)
    | '#' :: s => do readLines fuel d (← endLine ('#' :: s))
    | '[' :: s => do
      let (d, s) ← readHeader d s
      readLines fuel d (← endLine s)
    | s => do
      let ((path, key, v), s) ← readPair (readValue (depthLimit - 1)) s
      readLines fuel (← d.addPair path key v) (← endLine s)

/-- The root table of a document, which may start with a byte order mark. -/
def parse (text : String) : Option Table := do
  let s := match text.toList with
    | '\uFEFF' :: s => s
    | s => s
  (← readLines (s.length + 1) {} s).finish

end PakIndex.Toml
