import PakIndex.Proofs.Archive.RoundTrip
import PakIndex.Proofs.Index.Live

/-!
# Files do not grow

* `Index.Evolves`: what becomes of an index and of the file from which it was built, if nobody else
  writes to the file.
* `Index.Fits`, **`Index.Evolves.fits`**: the directory keeps its place and does not grow, and
  neither does the file.
* `Trailer.Truthful`: a trailer says what stands before and behind it.
* `Index.WritesExactly`: sizes and counts of a rewritten file, none of which is cut off.
* **`Index.flush_exact`**: a flush that writes does so exactly, and the file does not grow.
-/

namespace PakIndex

/-- Whether a trailer says the truth: about the bytes before the directory, about the rows of the
directory, and about the comment. -/
structure Trailer.Truthful (t : Trailer) (before : Bytes) (rows : List Listing.Row)
    (comment : Bytes) : Prop where
  entriesOnDisk : t.entriesOnDisk.toNat = rows.length
  entriesTotal : t.entriesTotal.toNat = rows.length
  directorySize : t.directorySize.toNat = (rows.flatMap Listing.Row.encode).length
  directoryOffset : t.directoryOffset.toNat = before.length
  commentLength : t.commentLength.toNat = comment.length

namespace Index

variable {i₀ i j : Index} {content₀ content content' : ByteArray} {s : Stream} {options : Options}
  {codec : Codec}

/-! ## From the index that was built -/

/-- What becomes of an index and of the file from which it was built, if the index is used and
flushed in any order and nobody else writes to the file. -/
inductive Evolves (i₀ : Index) (content₀ : ByteArray) : Index → ByteArray → Prop
  | built (path : Option String) : Evolves i₀ content₀ { i₀ with path := path } content₀
  | use {i : Index} {content : ByteArray} (codec : Codec) (u : Use) :
    Evolves i₀ content₀ i content →
    Evolves i₀ content₀ (use codec (.ofByteArray content) i u) content
  | flush {i : Index} {content : ByteArray} : Evolves i₀ content₀ i content →
    Evolves i₀ content₀ (i.flush content).2.1 (i.flush content).2.2

/-- Whether an index fits its file and the one from which it was built: the directory is where it
was and no larger, directory, trailer and comment have room in the file, and the file has not
grown. -/
structure Fits (i₀ : Index) (content₀ : ByteArray) (i : Index) (content : ByteArray) : Prop where
  coherent : i.Coherent (.ofByteArray content)
  directoryOffset : i.directoryOffset = i₀.directoryOffset
  directorySize_le : i.directorySize.toNat ≤ i₀.directorySize.toNat
  room : i.directoryOffset.toNat + i.directorySize.toNat + 22 + i.headers.comment.length ≤
    content.size
  size_le : content.size ≤ content₀.size

theorem build_fits (h : build options codec (.ofByteArray content) = .ok i) :
    i.Fits content i content := by
  have hcoherent := build_coherent h
  obtain ⟨headers, record, listing, es, hs, -, rfl⟩ := build_eq_ok_iff.mp h
  have hinside := (surveyed_of_ok hs).inside
  rw [Stream.size_ofByteArray] at hinside
  exact ⟨hcoherent, rfl, le_rfl, hinside, le_rfl⟩

theorem Fits.use (h : i₀.Fits content₀ i content) (codec : Codec) (u : Use) :
    i₀.Fits content₀ (Index.use codec (.ofByteArray content) i u) content := by
  obtain ⟨hheaders, hoffset, hsize⟩ := use_sameArchive codec (.ofByteArray content) i u
  refine ⟨h.coherent.use codec u, hoffset.trans h.directoryOffset, ?_, ?_, h.size_le⟩
  · rw [hsize]
    exact h.directorySize_le
  · rw [hheaders, hoffset, hsize]
    exact h.room

theorem Fits.unsigned (h : i₀.Fits content₀ i content) : i₀.Fits content₀ i.unsigned content := by
  have hlen := Headers.length_comment_dropSignature h.coherent.readable
  exact ⟨h.coherent.unsigned, h.directoryOffset, h.directorySize_le,
    le_trans (Nat.add_le_add_left hlen _) h.room, h.size_le⟩

theorem Fits.flushed (h : i₀.Fits content₀ i content) (hf : Flushed content content' i j) :
    i₀.Fits content₀ j content' ∧ content'.size ≤ content.size ∧
      j.directorySize.toNat ≤ i.directorySize.toNat := by
  have hsize := hf.size_eq
  have hrecords := hf.toNat_directorySize h.coherent
  have hle := h.coherent.records
  have hroom := h.unsigned.room
  change i.directoryOffset.toNat + i.directorySize.toNat + 22 + _ ≤ _ at hroom
  have hoffset : j.directoryOffset = i.directoryOffset := by rw [hf.index]; rfl
  have hheaders : j.headers = i.unsigned.headers := by rw [hf.index]
  refine ⟨⟨h.coherent.flushed hf, hoffset.trans h.directoryOffset, ?_, ?_, ?_⟩, ?_, ?_⟩
  · exact hrecords.trans_le (hle.trans h.directorySize_le)
  · rw [hoffset, hheaders, hrecords]
    omega
  · have := h.size_le
    omega
  · omega
  · omega

theorem Fits.flush (h : i₀.Fits content₀ i content) :
    i₀.Fits content₀ (i.flush content).2.1 (i.flush content).2.2 := by
  rcases flush_cases i content with
    ⟨-, hf⟩ | ⟨-, ⟨-, hf⟩ | ⟨hdirty, ⟨-, hf⟩ | ⟨-, -, hf⟩ | ⟨-, hf⟩⟩⟩
  · rw [hf]
    exact h
  · rw [hf]
    exact h
  · rw [hf]
    exact h.unsigned
  · rw [hf]
    exact h.unsigned
  · have hwritten := h.coherent.flush hdirty hf
    rw [hf]
    exact (h.flushed hwritten).1

/-- **Neither the directory nor the file grows**, however the index is used and flushed. -/
theorem Evolves.fits (h : Evolves i₀ content₀ i content)
    (hb : build options codec (.ofByteArray content₀) = .ok i₀) : i₀.Fits content₀ i content := by
  induction h with
  | built path =>
    obtain ⟨hcoherent, hoffset, hsize, hroom, hle⟩ := build_fits hb
    exact ⟨hcoherent.memorize path, hoffset, hsize, hroom, hle⟩
  | use codec u _ ih => exact ih.use codec u
  | flush _ ih => exact ih.flush

/-! ## What is written -/

/-- What a flush that makes `i` and `content` into `j` and `content'` writes: the directory has the
size of the records of all entries, the file ends behind the comment, the size of the directory and
the lengths of names and comment are not cut off where they become numbers of 32 and 16 bits, and
the trailer says the truth. -/
structure WritesExactly (i : Index) (content : ByteArray) (j : Index) (content' : ByteArray) :
    Prop where
  directorySize : j.directorySize.toNat =
    (i.tree.entries.map fun e => 46 + (i.tree.nameOf e).length).sum
  size : content'.size =
    i.directoryOffset.toNat + j.directorySize.toNat + 22 + j.headers.comment.length
  toNat_directory : (UInt32.ofNat i.directory.length).toNat = i.directory.length
  toNat_name : ∀ e ∈ i.tree.entries,
    (UInt16.ofNat (i.tree.nameOf e).length).toNat = (i.tree.nameOf e).length ∧
      e.toRecord.nameLength.toNat = (i.tree.nameOf e).length
  toNat_comment : (UInt16.ofNat j.headers.comment.length).toNat = j.headers.comment.length
  trailer : ∃ t : Trailer, content'.data.toList =
      content.data.toList.take i.directoryOffset.toNat ++
        (i.rows.flatMap Listing.Row.encode ++ (t.encode ++ j.headers.comment)) ∧
    t.Truthful (content.data.toList.take i.directoryOffset.toNat) i.rows j.headers.comment

theorem recordsSize_eq (i : Index) :
    i.recordsSize = (i.tree.entries.map fun e => 46 + (i.tree.nameOf e).length).sum := by
  rw [recordsSize, Tree.entries, List.map_map]
  rfl

theorem length_rows (i : Index) : i.rows.length = i.tree.entries.length := by
  rw [rows, List.length_map, Tree.entries, List.length_map]
  exact (Tree.sortByHeader_perm i.tree.toList).length_eq

theorem Coherent.toNat_name (h : i.Coherent s) : ∀ e ∈ i.tree.entries,
    (UInt16.ofNat (i.tree.nameOf e).length).toNat = (i.tree.nameOf e).length ∧
      e.toRecord.nameLength.toNat = (i.tree.nameOf e).length := by
  intro e he
  obtain ⟨⟨p, e⟩, hmem, rfl⟩ := List.mem_map.mp he
  have hsound := h.entries p e hmem
  have hexact : (UInt16.ofNat (i.tree.nameOf e).length).toNat = (i.tree.nameOf e).length :=
    UInt16.toNat_ofNat_of_lt' hsound.short
  refine ⟨hexact, ?_⟩
  show (UInt16.ofNat e.name.len.toNat).toNat = _
  rw [← NamePool.length_get hsound.held]
  exact hexact

theorem Flushed.writesExactly (hf : Flushed content content' i j)
    (h : i.Coherent (.ofByteArray content)) : i.WritesExactly content j content' := by
  have hrecords := hf.toNat_directorySize h
  have hdirectory := toNat_length_directory h.records
  have hheaders : j.headers = i.unsigned.headers := by rw [hf.index]
  have hcomment : (UInt16.ofNat j.headers.comment.length).toNat = j.headers.comment.length := by
    rw [hheaders]
    exact UInt16.toNat_ofNat_of_lt' h.unsigned.commentShort
  have hcount : (UInt16.ofNat i.tree.entries.length).toNat = i.rows.length := by
    rw [length_rows]
    exact UInt16.toNat_ofNat_of_lt' (Nat.lt_succ_of_le hf.countable)
  refine ⟨hrecords.trans (recordsSize_eq i), ?_, hdirectory, h.toNat_name, hcomment,
    i.unsigned.trailer, ?_, ⟨hcount, hcount, ?_, hf.before.symm, ?_⟩⟩
  · rw [hrecords, hheaders]
    exact hf.size_eq
  · rw [hf.bytes, hheaders, ← directory_eq]
    rfl
  · rw [← directory_eq]
    exact hdirectory
  · rw [hheaders] at hcomment ⊢
    exact hcomment

/-- **A flush writes exactly, and the file does not grow.** An archive is built, used and flushed in
any order, and nobody else writes to the file. A flush of changes that succeeds then writes a
directory of exactly the size of the records of all entries, which is no larger than the directory
of the archive that was built. The file ends behind the comment; it is no larger than before, and
than the one that was built, which has 2 GiB at most. No size, count or length is cut off. -/
theorem flush_exact (hb : build options codec (.ofByteArray content₀) = .ok i₀)
    (he : Evolves i₀ content₀ i content) (hdirty : i.flags.dirty = true)
    (hf : i.flush content = (.ok (), j, content')) :
    i.WritesExactly content j content' ∧
      (j.directorySize.toNat ≤ i.directorySize.toNat ∧
        i.directorySize.toNat ≤ i₀.directorySize.toNat) ∧
      (content'.size ≤ content.size ∧ content.size ≤ content₀.size ∧ content₀.size ≤ 2 ^ 31) := by
  have hfits := he.fits hb
  have hflushed := hfits.coherent.flush hdirty hf
  obtain ⟨-, hsize, hdirectory⟩ := hfits.flushed hflushed
  obtain ⟨headers, record, listing, es, hs, -, -⟩ := build_eq_ok_iff.mp hb
  have hsmall := (surveyed_of_ok hs).small
  rw [Stream.size_ofByteArray] at hsmall
  exact ⟨hflushed.writesExactly hfits.coherent, ⟨hdirectory, hfits.directorySize_le⟩,
    hsize, hfits.size_le, hsmall⟩

/-- Of two files under one path the directory keeps the second, so that the file becomes smaller. -/
theorem flush_exact_shadowed :
    let content := (Packed.archive [Packed.plain [0x61] [1], Packed.plain [0x41] []] []).toByteArray
    let codec : Codec := fun _ stored _ => .ok stored
    ∃ i₀ j content', build { readOnly := false } codec (.ofByteArray content) = .ok i₀ ∧
      i₀.markDirty.2.flush content = (.ok (), j, content') ∧
      i₀.markDirty.2.WritesExactly content j content' ∧ content'.size + 47 = content.size := by
  intro content codec
  have hrun : ((build { readOnly := false } codec (.ofByteArray content)).toOption.map fun i =>
      (i.markDirty.2.flags.dirty, (i.markDirty.2.flush content).1.isOk,
        (i.markDirty.2.flush content).2.2.size + 47 == content.size)) =
      some (true, true, true) := by decide +kernel
  obtain ⟨i₀, hi, hrun⟩ := Option.map_eq_some_iff.mp hrun
  rw [Prod.mk.injEq, Prod.mk.injEq] at hrun
  obtain ⟨hdirty, hflush, hsize⟩ := hrun
  have hbuild := toOption_eq_some_iff.mp hi
  obtain ⟨u, hflush⟩ := exists_of_isOk hflush
  have hf : i₀.markDirty.2.flush content = (.ok (), _, _) := Prod.ext hflush rfl
  have hevolves : Evolves i₀ content i₀.markDirty.2 content :=
    (Evolves.built i₀.path).use codec .markDirty
  exact ⟨i₀, _, _, hbuild, hf, (flush_exact hbuild hevolves hdirty hf).1, beq_iff_eq.mp hsize⟩

end Index

end PakIndex
