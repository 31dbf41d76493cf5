import PakIndex.Name

/-!
# Name pool

* `NamePool`: normalized names, held back to back.
* `NameRef`: where a name, or a part of one, stands in a pool.
* `NamePool.push`, `NamePool.get`: adding and reading a name.
* `NamePool.segments`: the parts of a name between separators.
-/

namespace PakIndex

/-- The place of a name in a pool. -/
structure NameRef where
  start : UInt32
  len : UInt32
  deriving Repr, DecidableEq, Inhabited

/-- Normalized names, held back to back. -/
structure NamePool where
  bytes : ByteArray

namespace NamePool

/-- The pool without names. -/
def empty : NamePool := ⟨ByteArray.empty⟩

instance : Inhabited NamePool := ⟨empty⟩

/-- The number of bytes that all names take. -/
def size (p : NamePool) : Nat := p.bytes.size

/-- The place of `name`, whose normalized form now ends the pool. -/
def push (p : NamePool) (name : Bytes) : NameRef × NamePool :=
  (⟨.ofNat p.size, .ofNat name.length⟩, ⟨p.bytes ++ (normalizeName name).toByteArray⟩)

/-- The bytes at a place. -/
def get (p : NamePool) (r : NameRef) : Bytes :=
  (p.bytes.extract r.start.toNat (r.start.toNat + r.len.toNat)).data.toList

/-- The reference to `len` bytes at `start` in front of `rest` unless it is empty. -/
def consRef (start len : UInt32) (rest : List NameRef) : List NameRef :=
  if len = 0 then rest else ⟨start, len⟩ :: rest

/-- The places of the nonempty runs between separators, where the current run began at `start`
and has had `len` bytes so far. -/
def segmentsAfter (start len : UInt32) : Bytes → List NameRef
  | [] => consRef start len []
  | b :: bs =>
    if isSeparator b then consRef start len (segmentsAfter (start + len + 1) 0 bs)
    else segmentsAfter start (len + 1) bs

/-- The places of the nonempty runs between the separators of a name. -/
def segments (p : NamePool) (r : NameRef) : List NameRef := segmentsAfter r.start 0 (p.get r)

/-- The segments of a name. -/
def path (p : NamePool) (r : NameRef) : List Bytes := (p.segments r).map p.get

end NamePool

end PakIndex
