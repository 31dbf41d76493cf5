import PakIndex.Error

/-!
# Content with a position

* `overwrite`, `resize`: writing into a growing content and setting its length.
* `Cursor`: a content together with the position of the next read.
* `Cursor.seek`, `Cursor.toEnd`, `Cursor.read`, `Cursor.readAt`, `Cursor.writeAt`: its moves. A read
  is exact: it yields all it was asked for or fails and leaves the position at the end.
-/

namespace PakIndex

/-- A content of `len` bytes that starts like `content` and goes on with zeros. -/
def resize (content : ByteArray) (len : Nat) : ByteArray :=
  content.extract 0 len ++ (List.replicate (len - content.size) 0).toByteArray

/-- The content with `bs` written at `pos`; a gap before `pos` is filled with zeros. -/
def overwrite (content : ByteArray) (pos : Nat) (bs : Bytes) : ByteArray :=
  resize content pos ++ bs.toByteArray ++ content.extract (pos + bs.length) content.size

/-- A content and the position of the next read. -/
structure Cursor where
  content : ByteArray
  pos : Nat

namespace Cursor

/-- The cursor at the start of a content. -/
def ofBytes (bs : Bytes) : Cursor := ⟨bs.toByteArray, 0⟩

/-- The length of the content. -/
def size (c : Cursor) : Nat := c.content.size

/-- The cursor at `pos`, which may lie past the end. -/
def seek (c : Cursor) (pos : Nat) : Cursor := { c with pos }

/-- The cursor at the end of its content. -/
def toEnd (c : Cursor) : Cursor := c.seek c.size

/-- The next `len` bytes and the cursor after them. -/
def read (c : Cursor) (len : Nat) : Except Error Bytes × Cursor :=
  if len = 0 ∨ c.pos + len ≤ c.size then
    (.ok (c.content.extract c.pos (c.pos + len)).data.toList, c.seek (c.pos + len))
  else (.error (.io .endOfData), c.toEnd)

/-- The `len` bytes from `pos` on and the cursor after them. -/
def readAt (c : Cursor) (pos len : Nat) : Except Error Bytes × Cursor := (c.seek pos).read len

/-- The cursor after `bs` was written at `pos`. -/
def writeAt (c : Cursor) (pos : Nat) (bs : Bytes) : Cursor :=
  ⟨overwrite c.content pos bs, pos + bs.length⟩

end Cursor

end PakIndex
