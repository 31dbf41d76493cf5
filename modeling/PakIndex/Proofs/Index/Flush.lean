import PakIndex.Index.Flush
import PakIndex.Proofs.Cursor
import PakIndex.Proofs.Index.Use
import PakIndex.Proofs.Index.Written

/-!
# Flushing

* `Index.rows`, `Index.trailer`: what a rewritten directory and its trailer say.
* `Index.unsigned`: the index that a flush writes.
* `Index.flush_cases`: what a flush comes to; `Index.flush_keeps`: what it leaves as it is.
* **`Index.Coherent.flush`**: what a flush that writes leaves behind.
* **`Index.Coherent.written`**: it is laid out as the reader expects it.
-/

namespace PakIndex.Index

variable {i j : Index} {s : Stream} {e : Entry} {p : Path} {content content' : ByteArray}

/-! ## The rewritten directory -/

/-- The rows of the directory that describes the entries. -/
def rows (i : Index) : List Listing.Row :=
  i.tree.byHeader.map fun x => (x.2.toRecord, i.tree.nameOf x.2)

theorem directory_eq (i : Index) : i.directory = i.rows.flatMap Listing.Row.encode := by
  rw [directory, rows, List.flatMap_map]
  rfl

theorem mem_byHeader : (p, e) ∈ i.tree.byHeader ↔ (p, e) ∈ i.tree.toList :=
  (Tree.sortByHeader_perm i.tree.toList).mem_iff

theorem Coherent.rows_writable (h : i.Coherent s) : ∀ row ∈ i.rows, row.Writable := by
  intro row hrow
  obtain ⟨⟨p, e⟩, he, rfl⟩ := List.mem_map.mp hrow
  have hs := h.entries p e (mem_byHeader.mp he)
  exact ⟨hs.short, hs.last, hs.method, hs.version⟩

theorem length_directory (i : Index) : i.directory.length = i.recordsSize := by
  have hperm : (i.tree.byHeader.map fun x => 46 + (i.tree.nameOf x.2).length).sum = i.recordsSize :=
    ((Tree.sortByHeader_perm i.tree.toList).map _).sum_eq
  rw [← hperm, directory, List.length_flatMap]
  refine congrArg List.sum (List.map_congr_left fun x _ => ?_)
  exact DirectoryRecord.length_encode _ _

theorem toNat_length_directory (h : i.recordsSize ≤ i.directorySize.toNat) :
    (UInt32.ofNat i.directory.length).toNat = i.directory.length := by
  rw [length_directory]
  exact UInt32.toNat_ofNat_of_lt' (lt_of_le_of_lt h i.directorySize.toNat_lt)

/-! ## The rewritten trailer -/

/-- The trailer behind the directory that describes the entries. -/
def trailer (i : Index) : Trailer :=
  i.closing (.ofNat i.tree.entries.length) (.ofNat i.directory.length)

theorem trailer_spec (h : i.headers.diskEncryption ≠ .streamCipherKeyTable) :
    i.trailer.OneVolume ∧ Encryption.ofDisk i.trailer.disk = i.headers.diskEncryption := by
  unfold Headers.diskEncryption at h ⊢
  have hdisk : i.trailer.disk =
    if i.headers.extended.isNone then i.headers.encryption.toDisk else 0 := rfl
  by_cases hx : i.headers.extended.isNone = true
  · rw [if_pos hx] at hdisk h ⊢
    rw [hdisk]
    refine ⟨⟨?_, rfl, rfl⟩, Encryption.ofDisk_toDisk h⟩
    rw [hdisk]
    exact diskNumber_toDisk _
  · rw [if_neg hx] at hdisk ⊢
    rw [hdisk]
    refine ⟨⟨?_, rfl, rfl⟩, rfl⟩
    rw [hdisk]
    rfl

/-! ## What a flush writes -/

/-- The index without its directory signature. -/
def unsigned (i : Index) : Index := { i with headers := i.headers.dropSignature }

theorem locator_unsigned (i : Index) : i.unsigned.locator = i.locator := by
  rw [unsigned, locator, Headers.encryption_dropSignature, locator]

theorem Coherent.unsigned (h : i.Coherent s) : i.unsigned.Coherent s := by
  obtain ⟨hcomment, hlegacy⟩ := Headers.ofComment_dropSignature h.readable
  have hlen := Headers.length_comment_dropSignature h.readable
  refine ⟨h.tree, ?_, h.slots, ⟨_, hlegacy, hcomment⟩, hlen.trans_lt h.commentShort, h.records,
    h.inside, le_trans (Nat.add_le_add_left hlen _) h.small⟩
  rw [locator_unsigned]
  exact h.entries

/-- **What a flush comes to.** It is refused, or there is nothing to be written, or the directory
has too many entries or too long a comment for its trailer, or it is written. Too late a failure
costs the directory its signature. -/
theorem flush_cases (i : Index) (content : ByteArray) :
    let written := i.unsigned.directory ++ i.unsigned.trailer.encode ++ i.unsigned.headers.comment
    (i.flags.readOnly = true ∧ i.flush content = (.error .readOnly, i, content)) ∨
    i.flags.readOnly = false ∧
      ((i.flags.dirty = false ∧ i.flush content = (.ok (), i, content)) ∨
      i.flags.dirty = true ∧
        ((0xFFFF < i.tree.entries.length ∧
          i.flush content = (.error (.io .tooManyEntries), i.unsigned, content)) ∨
        (i.tree.entries.length ≤ 0xFFFF ∧ 0xFFFF < i.unsigned.headers.comment.length ∧
          i.flush content = (.error (.io .commentTooLong), i.unsigned, content)) ∨
        (i.tree.entries.length ≤ 0xFFFF ∧ i.flush content = (.ok (), { i.unsigned with
            directorySize := .ofNat i.unsigned.directory.length, flags.dirty := false },
          resize (overwrite content i.directoryOffset.toNat written)
            (i.directoryOffset.toNat + written.length))))) := by
  intro written
  unfold Index.flush
  by_cases hro : i.flags.readOnly = true
  · exact .inl ⟨hro, if_pos hro⟩
  refine .inr ⟨Bool.eq_false_of_not_eq_true hro, ?_⟩
  rw [if_neg hro]
  by_cases hdirty : i.flags.dirty = true
  · rw [if_neg (not_not.mpr hdirty)]
    refine .inr ⟨hdirty, ?_⟩
    by_cases h₁ : 0xFFFF < i.tree.entries.length
    · exact .inl ⟨h₁, if_pos h₁⟩
    refine .inr ?_
    by_cases h₂ : 0xFFFF < i.unsigned.headers.comment.length
    · exact .inl ⟨Nat.not_lt.mp h₁, h₂, (if_neg h₁).trans (if_pos h₂)⟩
    · exact .inr ⟨Nat.not_lt.mp h₁, (if_neg h₁).trans (if_neg h₂)⟩
  · rw [if_pos hdirty]
    exact .inl ⟨Bool.eq_false_of_not_eq_true hdirty, rfl⟩

/-- **However a flush ends**, the tree, the place of the directory and the technique of encryption
stay as they are. -/
theorem flush_keeps (i : Index) (content : ByteArray) :
    let j := (i.flush content).2.1
    j.tree = i.tree ∧ j.directoryOffset = i.directoryOffset ∧
      j.headers.encryption = i.headers.encryption := by
  have hencryption : i.unsigned.headers.encryption = i.headers.encryption :=
    Headers.encryption_dropSignature i.headers
  rcases flush_cases i content with
    ⟨-, h⟩ | ⟨-, ⟨-, h⟩ | ⟨-, ⟨-, h⟩ | ⟨-, -, h⟩ | ⟨-, h⟩⟩⟩ <;> rw [h]
  exacts [⟨rfl, rfl, rfl⟩, ⟨rfl, rfl, rfl⟩, ⟨rfl, rfl, hencryption⟩, ⟨rfl, rfl, hencryption⟩,
    ⟨rfl, rfl, hencryption⟩]

/-- What a flush that writes leaves behind: an index without changes, and a file in which rows, a
trailer and the comment follow what stands before the directory. -/
structure Flushed (content content' : ByteArray) (i j : Index) : Prop where
  allowed : i.flags.readOnly = false
  countable : i.tree.entries.length ≤ 0xFFFF
  index : j = { i.unsigned with
    directorySize := .ofNat i.unsigned.directory.length, flags.dirty := false }
  before : (content.data.toList.take i.directoryOffset.toNat).length = i.directoryOffset.toNat
  bytes : content'.data.toList = content.data.toList.take i.directoryOffset.toNat ++
    (i.unsigned.directory ++ (i.unsigned.trailer.encode ++ i.unsigned.headers.comment))

theorem flush_ok (hdirty : i.flags.dirty = true) (hf : i.flush content = (.ok (), j, content')) :
    let written := i.unsigned.directory ++ i.unsigned.trailer.encode ++ i.unsigned.headers.comment
    i.flags.readOnly = false ∧ i.tree.entries.length ≤ 0xFFFF ∧
      j = { i.unsigned with
        directorySize := .ofNat i.unsigned.directory.length, flags.dirty := false } ∧
      content' = resize (overwrite content i.directoryOffset.toNat written)
        (i.directoryOffset.toNat + written.length) := by
  rcases flush_cases i content with
    ⟨-, h⟩ | ⟨hro, ⟨hclean, -⟩ | ⟨-, ⟨-, h⟩ | ⟨-, -, h⟩ | ⟨hcount, h⟩⟩⟩
  · cases h.symm.trans hf
  · cases hclean.symm.trans hdirty
  · cases h.symm.trans hf
  · cases h.symm.trans hf
  · rw [hf, Prod.mk.injEq, Prod.mk.injEq] at h
    exact ⟨hro, hcount, h.2.1, h.2.2⟩

/-- **What a flush that writes leaves behind.** -/
theorem Coherent.flush (h : i.Coherent (.ofByteArray content)) (hdirty : i.flags.dirty = true)
    (hf : i.flush content = (.ok (), j, content')) : Flushed content content' i j := by
  obtain ⟨hallowed, hcount, hj, hc⟩ := flush_ok hdirty hf
  have hinside : i.directoryOffset.toNat ≤ content.size := by
    have := h.inside
    rw [Stream.size_ofByteArray] at this
    omega
  refine ⟨hallowed, hcount, hj, ?_, ?_⟩
  · rw [List.length_take, Array.length_toList, ByteArray.size_data]
    exact min_eq_left hinside
  · rw [hc, toList_replaceFrom, Nat.sub_eq_zero_of_le hinside, List.replicate_zero,
      List.append_nil, List.append_assoc i.unsigned.directory]

namespace Flushed

theorem toNat_directorySize (hf : Flushed content content' i j) (h : i.Coherent s) :
    j.directorySize.toNat = i.recordsSize := by
  rw [hf.index]
  exact (toNat_length_directory h.unsigned.records).trans (length_directory _)

theorem size_eq (hf : Flushed content content' i j) : content'.size =
    i.directoryOffset.toNat + i.recordsSize + 22 + i.unsigned.headers.comment.length := by
  have hdirectory : i.unsigned.directory.length = i.recordsSize := length_directory _
  rw [← ByteArray.size_data, ← Array.length_toList, hf.bytes, List.length_append, hf.before,
    List.length_append, List.length_append, hdirectory, Trailer.length_encode]
  omega

theorem drop_bytes (hf : Flushed content content' i j) (h : i.Coherent s) :
    content'.data.toList.drop (j.directoryOffset.toNat + j.directorySize.toNat) =
      i.unsigned.trailer.encode ++ i.unsigned.headers.comment := by
  have hdirectory : i.unsigned.directory.length = i.recordsSize := length_directory _
  have hoffset : j.directoryOffset = i.directoryOffset := by
    rw [hf.index]
    rfl
  rw [hf.bytes, ← List.append_assoc, hf.toNat_directorySize h, hoffset]
  refine List.drop_left' ?_
  rw [List.length_append, hf.before, hdirectory]

end Flushed

/-- **What a flush leaves behind is laid out as the reader expects it**, if the comment does not
look like another trailer. -/
theorem Coherent.written (h : i.Coherent (.ofByteArray content)) (hf : Flushed content content' i j)
    (hunique : ∀ k, 8 < k → k ≤ i.unsigned.headers.comment.length →
      (i.unsigned.trailer.encode ++ i.unsigned.headers.comment).field k 4 ≠ Trailer.signature) :
    Written (.ofByteArray content') (content.data.toList.take i.directoryOffset.toNat)
      i.unsigned.rows i.unsigned.trailer i.unsigned.headers.comment := by
  have hbytes := hf.bytes
  rw [← Stream.toList_ofByteArray] at hbytes
  have hsmall : i.directoryOffset.toNat + i.directorySize.toNat + 22 +
      i.unsigned.headers.comment.length ≤ maxArchiveSize := h.unsigned.small
  have hlen : i.unsigned.directory.length ≤ i.directorySize.toNat := by
    rw [length_directory]
    exact h.unsigned.records
  have hdisk := (Headers.ofComment_dropSignature h.readable).2
  refine ⟨?_, ?_, h.unsigned.rows_writable, (trailer_spec hdisk).1, hf.before.symm, ?_, ?_, hunique⟩
  · rw [hbytes, directory_eq]
  · rw [← Stream.length_toList, hbytes, List.length_append, List.length_append, List.length_append,
      hf.before, Trailer.length_encode]
    omega
  · rw [← directory_eq]
    exact toNat_length_directory h.unsigned.records
  · exact UInt16.toNat_ofNat_of_lt' h.unsigned.commentShort

end PakIndex.Index
