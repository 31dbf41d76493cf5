import PakIndex.Entry
import PakIndex.Tree.Path
import PakIndex.Tree.Shelf

/-!
# Folders and the files in them

* `Node`: a folder with its subfolders and its files, each on a shelf of their own. A file and a
  subfolder may have one name.
* `Node.walk?`, `Node.get?`: the folder and the file at a path.
* `Node.insert`: puts a file in its place and makes the folders on the way to it.
* `Node.modify`: changes the file at a path.
* `Node.toList`: all files with their paths; in every folder its files come before its subfolders.
-/

namespace PakIndex

/-- A folder: its subfolders and its files. -/
inductive Node where
  | mk (folders : Array (NameRef × Node)) (files : Array (NameRef × Entry))

namespace Node

/-- The folder that holds nothing. -/
def empty : Node := .mk #[] #[]

instance : Inhabited Node := ⟨empty⟩

/-- The subfolders of a folder. -/
def folders : Node → Shelf Node
  | .mk folders _ => folders

/-- The files of a folder. -/
def files : Node → Shelf Entry
  | .mk _ files => files

variable (names : NamePool)

/-- The folder at a path below a folder. -/
def walk? : Path → Node → Option Node
  | [], n => some n
  | key :: rest, n =>
    match n.folders.get? names key with
    | some child => walk? rest child
    | none => none

/-- The file at a path below a folder. -/
def get? : Path → Node → Option Entry
  | [], _ => none
  | [leaf], n => n.files.get? names leaf
  | key :: rest, n =>
    match n.folders.get? names key with
    | some child => get? rest child
    | none => none

/-- Puts a file at the path that has its names at the given places, and makes the folders on the
way to it that are not there. The file that was there before is given back. -/
def insert (e : Entry) : List NameRef → Node → Option Entry × Node
  | [], n => (none, n)
  | [leaf], .mk folders files =>
    let (old, files) := Shelf.alter names (names.get leaf) files fun old? =>
      (old?.map Prod.snd, (leaf, e))
    (old, .mk folders files)
  | part :: rest, .mk folders files =>
    let (old, folders) := Shelf.alter names (names.get part) folders fun child? =>
      let (ref, child) := child?.getD (part, empty)
      let (old, child) := insert e rest child
      (old, (ref, child))
    (old, .mk folders files)

/-- Changes the file at a path, if there is one. -/
def modify (f : Entry → Entry) : Path → Node → Node
  | [], n => n
  | [leaf], .mk folders files => .mk folders (Shelf.modify names leaf files f)
  | key :: rest, .mk folders files => .mk (Shelf.modify names key folders (modify f rest)) files

mutual

/-- All files with their paths: those of the folder itself, then those of its subfolders. -/
def toList : Node → List (Path × Entry)
  | .mk folders files => (files.toList.map fun (r, e) => ([names.get r], e)) ++ ofFolders folders

/-- The files below an array of folders. -/
def ofFolders : Array (NameRef × Node) → List (Path × Entry)
  | ⟨folders⟩ => ofFolderList folders

/-- The files below a list of folders. -/
def ofFolderList : List (NameRef × Node) → List (Path × Entry)
  | [] => []
  | folder :: rest => ofFolder folder ++ ofFolderList rest

/-- The files below a folder with a name. -/
def ofFolder : NameRef × Node → List (Path × Entry)
  | (r, child) => (toList child).map fun (path, e) => (names.get r :: path, e)

end

end Node

end PakIndex
