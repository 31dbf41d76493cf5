import PakIndex.Error

/-!
# Extra fields

An extra field is a sequence of blocks, each with a 16-bit id, a 16-bit size and that many bytes.

* `ExtraBlock`: one block.
* `ExtraBlock.parseAll`, `ExtraBlock.encodeAll`: an extra field read and written as blocks.
* `ExtraBlock.modificationTime`: the time that the blocks of a file carry.
-/

namespace PakIndex

/-- A block of an extra field. -/
structure ExtraBlock where
  id : UInt16
  data : Bytes
  deriving Repr, DecidableEq, Inhabited

namespace ExtraBlock

/-- The id of a block with file times. -/
def timesId : UInt16 := 0x000a

/-- The bytes of a block. -/
def encode (b : ExtraBlock) : Bytes := le16 b.id ++ le16 (.ofNat b.data.length) ++ b.data

/-- The bytes of a sequence of blocks. -/
def encodeAll (blocks : List ExtraBlock) : Bytes := (blocks.map encode).flatten

/-- The blocks of an extra field. -/
def parseAll : Bytes → Except Error (List ExtraBlock)
  | [] => .ok []
  | i₀ :: i₁ :: s₀ :: s₁ :: rest =>
    let id := Bytes.u16At [i₀, i₁] 0
    let size := (Bytes.u16At [s₀, s₁] 0).toNat
    let data := rest.take size
    if data.length < size then .error (.directoryCorrupt (.blockPastEnd id))
    else
      match parseAll (rest.drop size) with
      | .error e => .error e
      | .ok blocks => .ok (⟨id, data⟩ :: blocks)
  | _ => .error (.directoryCorrupt .truncatedBlock)
termination_by bs => bs.length
decreasing_by simp only [List.length_cons, List.length_drop]; omega

/-- Whether a block carries a modification time: four reserved bytes, tag and size of an attribute,
then the time. -/
def hasTime (b : ExtraBlock) : Bool := b.id == timesId && 16 ≤ b.data.length

/-- The modification time in the last block that carries one. -/
def modificationTime (blocks : List ExtraBlock) : Option UInt64 :=
  (blocks.filter hasTime).getLast?.map fun b => b.data.u64At 8

end ExtraBlock

end PakIndex
