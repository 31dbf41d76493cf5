/-!
# Values and tables of a TOML document

* `Toml.Value`, `Toml.Table`: what a document holds.
* `Toml.Origin`: how a table came about, which decides whether it may be extended.
* `Toml.Table.within`: works on a table that a path leads to.
* `Toml.Table.add`: binds a dotted key.
-/

namespace PakIndex.Toml

/-- How a table came about. -/
inductive Origin
  /-- By a header of its own. -/
  | header
  /-- By a longer header that leads through it. -/
  | implied
  /-- By a dotted key. -/
  | dotted
  /-- By a value in braces. -/
  | inline
  deriving Repr, DecidableEq, Inhabited

/-- A value, with tables as lists of keys and values in the order of writing. -/
inductive Value
  | string (text : String)
  | integer (number : Int)
  | float (text : String)
  | boolean (value : Bool)
  | dateTime (text : String)
  | array (items : List Value)
  | table (origin : Origin) (entries : List (String × Value))
  /-- Tables with a common header in double brackets. -/
  | tables (items : List (List (String × Value)))
  deriving Repr, Inhabited

/-- The keys of a table with their values. -/
abbrev Table := List (String × Value)

namespace Table

/-- The table with another value for a key; a new key comes last. -/
def set (t : Table) (key : String) (value : Value) : Table :=
  if (t.lookup key).isSome then t.map fun p => if p.1 = key then (key, value) else p
  else t ++ [(key, value)]

/-- The table without a key. -/
def erase (t : Table) (key : String) : Table := t.filter (·.1 ≠ key)

/-- Works on the table that a path leads to, starting from a table and its origin. Missing tables on
the way are made, as dotted or implied ones. Of tables with a common header the last one is meant.
No way leads through other values and values in braces, nor by dots through a table with a
header. -/
def within {α : Type} (dotted : Bool) (f : Origin → Table → Option (α × Table)) :
    (path : List String) → Origin → Table → Option (α × Table)
  | [], origin, t => f origin t
  | key :: path, _, t =>
    match t.lookup key with
    | none => do
      let origin := if dotted then .dotted else .implied
      let (a, inner) ← within dotted f path origin []
      return (a, t.set key (.table origin inner))
    | some (.table origin inner) => do
      if origin = .inline ∨ (dotted ∧ origin = .header) then none
      let (a, inner) ← within dotted f path origin inner
      return (a, t.set key (.table origin inner))
    | some (.tables items) => do
      let last ← items.getLast?
      let (a, last) ← within dotted f path .header last
      return (a, t.set key (.tables (items.dropLast ++ [last])))
    | some _ => none

/-- The table with a value for a dotted key. The key must be new, and a table that dots lead to must
have been made by dots. -/
def add (t : Table) (path : List String) (key : String) (value : Value) : Option Table :=
  let bind (origin : Origin) (inner : Table) : Option (Unit × Table) :=
    if (origin == .dotted) == path.isEmpty ∨ (inner.lookup key).isSome then none
    else some ((), inner ++ [(key, value)])
  (within true bind path .header t).map (·.2)

end Table

end PakIndex.Toml
