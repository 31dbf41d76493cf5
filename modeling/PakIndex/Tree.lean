import PakIndex.Tree.Node

/-!
# The tree of entries

* `Tree`: the entries of an archive in folders, with the pool that holds their names and their
  number.
* `Tree.insert`, `Tree.find?`, `Tree.update`: the tree as a map; paths are compared without regard
  to case and kind of separator.
* `Tree.toList`, `Tree.entries`: all entries in the order of listings.
* `Tree.folder?`: the files and subfolders of a folder.
* `Tree.refreshSlots`: where the slot of every entry ends.
-/

namespace PakIndex

/-- The entries of an archive in folders. -/
structure Tree where
  names : NamePool
  root : Node
  /-- The number of entries. -/
  size : Nat

/-- What a folder holds, in order. -/
structure Folder where
  files : List (Bytes × Entry)
  folders : List Bytes
  deriving Repr, Inhabited

/-- Whether a folder holds nothing. -/
def Folder.isEmpty (f : Folder) : Bool := f.files.isEmpty && f.folders.isEmpty

namespace Tree

/-- The tree without entries over a pool of names. -/
def ofNames (names : NamePool) : Tree := ⟨names, .empty, 0⟩

/-- The tree without names and entries. -/
def empty : Tree := ofNames .empty

instance : Inhabited Tree := ⟨empty⟩

/-- Whether there are no entries. -/
def isEmpty (t : Tree) : Bool := t.size == 0

/-- The normalized full name of an entry. -/
def nameOf (t : Tree) (e : Entry) : Bytes := t.names.get e.name

/-- The text of the normalized full name of an entry. -/
def pathOf (t : Tree) (e : Entry) : String := lossyText (t.nameOf e)

/-- The entry at a path. -/
def get? (t : Tree) (path : Path) : Option Entry := t.root.get? t.names path

/-- The tree in which the entry `e` at a path, if there is one, has become `f e`. -/
def modify (t : Tree) (path : Path) (f : Entry → Entry) : Tree :=
  { t with root := t.root.modify t.names f path }

/-- The tree with `e` under the path that its name spells, and the entry that it replaces. A name
without segments leads nowhere. -/
def insert (t : Tree) (e : Entry) : Option Entry × Tree :=
  match t.names.segments e.name with
  | [] => (none, t)
  | path =>
    let (old, root) := t.root.insert t.names e path
    (old, ⟨t.names, root, if old.isSome then t.size else t.size + 1⟩)

/-- The entry of the file at a path. -/
def find? (t : Tree) (path : String) : Option Entry := t.get? (querySegments path)

/-- The tree in which the entry of the file at a path, if there is one, has been changed by `f`. -/
def update (t : Tree) (path : String) (f : Entry → Entry) : Tree :=
  t.modify (querySegments path) f

/-- All paths and entries: in every folder its files, then those of its subfolders. -/
def toList (t : Tree) : List (Path × Entry) := t.root.toList t.names

/-- All entries: in every folder its files, then those of its subfolders. -/
def entries (t : Tree) : List Entry := t.toList.map Prod.snd

/-- A folder. The root is there even if it is empty. -/
def folder? (t : Tree) (path : String) : Option Folder :=
  (t.root.walk? t.names (querySegments path)).map fun n =>
    ⟨n.files.toList.map fun (r, e) => (t.names.get r, e),
      n.folders.toList.map fun (r, _) => t.names.get r⟩

/-! ## Slots -/

/-- Entries in the order of their headers; those with one header keep their order. -/
def sortByHeader (l : List (Path × Entry)) : List (Path × Entry) :=
  l.mergeSort fun a b => a.2.headerOffset ≤ b.2.headerOffset

/-- All paths and entries in the order of the headers. -/
def byHeader (t : Tree) : List (Path × Entry) := sortByHeader t.toList

/-- Where the slots of entries end that are in the order of their headers: at the next header, and
at `stop` for the last entry. -/
def slotEnds (stop : UInt32) (sorted : List (Path × Entry)) : List (Path × UInt32) :=
  (sorted.map Prod.fst).zip ((sorted.drop 1).map (fun x => x.2.headerOffset) ++ [stop])

/-- The tree in which every slot ends at the next header and the last one at the directory. -/
def refreshSlots (t : Tree) (directoryOffset : UInt32) : Tree :=
  (slotEnds directoryOffset t.byHeader).foldl
    (fun t (path, stop) => t.modify path fun e => { e with slotEnd := stop }) t

end Tree

end PakIndex
