/-!
# Options

* `Thoroughness`: how much is checked when an index is built.
* `Options`: how an archive is opened.
-/

namespace PakIndex

/-- How much is checked when an index is built. -/
inductive Thoroughness
  /-- The directory is read; payloads are located on demand, or at once in encrypted archives. -/
  | basic
  /-- Every payload is located and its local header checked. -/
  | full
  /-- Every payload is also decoded and verified. -/
  | validate
  deriving Repr, DecidableEq, Inhabited

/-- The word for a thoroughness. -/
def Thoroughness.name : Thoroughness → String
  | .basic => "default"
  | .full => "full"
  | .validate => "validate"

/-- The thoroughness with a given word. -/
def Thoroughness.ofName? (name : String) : Option Thoroughness :=
  [.basic, .full, .validate].find? (·.name == name)

/-- Whether local headers are checked when an index is built. -/
def Thoroughness.atLeastFull (t : Thoroughness) : Bool := t != .basic

/-- How an archive is opened. -/
structure Options where
  init : Thoroughness := .basic
  /-- The file is only read. -/
  readOnly : Bool := true
  /-- A new archive is started even if there is a file. -/
  createNew : Bool := false
  /-- The archive is never compacted when its directory is rewritten. -/
  dontCompact : Bool := false
  /-- The index keeps the path of the archive. -/
  memorizePath : Bool := true
  deriving Repr, DecidableEq, Inhabited

end PakIndex
