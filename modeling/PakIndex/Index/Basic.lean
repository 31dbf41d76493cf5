import PakIndex.Tree
import PakIndex.Headers
import PakIndex.Entry.Locator

/-!
# The index of an archive

* `Index`: the entries of an archive and what its trailer says.
* `Index.find?`, `Index.contains`, `Index.folder?`, `Index.entries`: lookups, which read nothing.
* `Index.markDirty`: asks for the directory to be rewritten.
-/

namespace PakIndex

/-- The state of an index besides its content. -/
structure IndexFlags where
  /-- The file was opened for reading only. -/
  readOnly : Bool := false
  /-- The directory in the file is not that of the index. -/
  dirty : Bool := false
  /-- The archive is never compacted. -/
  dontCompact : Bool := false
  deriving Repr, DecidableEq, Inhabited

/-- The entries of an archive and what its trailer says. -/
structure Index where
  tree : Tree
  headers : Headers
  directoryOffset : UInt32
  directorySize : UInt32
  flags : IndexFlags
  /-- The path that the archive was opened from, if it is kept. -/
  path : Option String := none
  deriving Inhabited

namespace Index

/-- The number of entries. -/
def size (i : Index) : Nat := i.tree.size

/-- The entry of a file. -/
def find? (i : Index) (path : String) : Option Entry := i.tree.find? path

/-- Whether there is a file at a path. -/
def contains (i : Index) (path : String) : Bool := (i.find? path).isSome

/-- A folder; the empty path is the root. -/
def folder? (i : Index) (path : String) : Option Folder := i.tree.folder? path

/-- All entries with the texts of their paths, in the order of listings. -/
def entries (i : Index) : List (String × Entry) := i.tree.entries.map fun e => (i.tree.pathOf e, e)

/-- What decides where the payloads lie. -/
def locator (i : Index) : Locator := ⟨i.headers.encryption, i.directoryOffset⟩

/-- Asks for the directory to be rewritten by the next flush. -/
def markDirty (i : Index) : Except Error Unit × Index :=
  if i.flags.readOnly then (.error .readOnly, i)
  else (.ok (), { i with flags.dirty := true })

end Index

end PakIndex
