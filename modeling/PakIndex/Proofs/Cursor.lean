import PakIndex.Cursor
import PakIndex.Proofs.Stream
import Mathlib.Tactic

/-!
# Writing a content

* `toList_resize`, `toList_overwrite`: writing as an operation on lists of bytes.
* **`toList_replaceFrom`**: what is written at a position of a content, which then ends there.
-/

namespace PakIndex

theorem toList_resize (content : ByteArray) (len : Nat) : (resize content len).data.toList =
    content.data.toList.take len ++ List.replicate (len - content.size) 0 := by
  simp [resize]

theorem toList_overwrite (content : ByteArray) (pos : Nat) (bs : Bytes) :
    (overwrite content pos bs).data.toList = content.data.toList.take pos ++
      List.replicate (pos - content.size) 0 ++ bs ++
        content.data.toList.drop (pos + bs.length) := by
  simp [overwrite, toList_resize]

/-- **What is written at a position of a content** follows what stands before it or zeros, and
nothing follows once the content ends there. -/
theorem toList_replaceFrom (content : ByteArray) (pos : Nat) (bs : Bytes) :
    (resize (overwrite content pos bs) (pos + bs.length)).data.toList =
      content.data.toList.take pos ++ List.replicate (pos - content.size) 0 ++ bs := by
  have hlen : (content.data.toList.take pos ++ List.replicate (pos - content.size) 0 ++ bs).length =
      pos + bs.length := by
    simp only [List.length_append, List.length_take, List.length_replicate, Array.length_toList,
      ByteArray.size_data]
    omega
  have hover := toList_overwrite content pos bs
  have hsize : pos + bs.length - (overwrite content pos bs).size = 0 := by
    have hl := congrArg List.length hover
    rw [Array.length_toList, ByteArray.size_data, List.length_append, hlen] at hl
    omega
  rw [toList_resize, hover, hsize, List.replicate_zero, List.append_nil]
  exact List.take_left' hlen

end PakIndex
