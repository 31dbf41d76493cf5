import PakIndex.Proofs.Headers.Unsigned
import PakIndex.Proofs.Index.Found
import PakIndex.Proofs.Index.Mirror

/-!
# What a rewritten archive carries over

* `Index.Coherent.rewrittenContents_eq`: what is read back does not depend on which payloads are
  located.
* **`Index.flush_reopen`**: the index of a rewritten archive is the one that was written, and it
  carries over what was opened.
* `SignedArchive`: an archive with files, a directory signature and a table of keys, and
  `Index.flush_reopen_signed`, which rewrites it.
-/

namespace PakIndex

namespace Index

variable {i j : Index} {s : Stream} {codec : Codec}

/-! ## Whatever has been located -/

/-- **What is read back does not depend on which payloads are located.** -/
theorem Coherent.rewrittenContents_eq (hi : i.Coherent s) (hj : j.Coherent s)
    (hlocator : j.locator = i.locator) (htree : j.tree.unlocated = i.tree.unlocated) :
    j.rewrittenContents = i.rewrittenContents := by
  have hunlocated : ∀ i : Index, i.Coherent s → i.rewrittenContents =
      i.tree.unlocated.toList.map fun x => (x.1, i.tree.unlocated.nameOf x.2, { x.2 with
        dataOffset := if i.locator.encryption.isEncrypted ∧ x.2.compressedSize ≠ 0 then
          (i.locator.locate s x.2 (i.tree.unlocated.nameOf x.2)).toOption else none
        mtime := none
        name := default }) := by
    intro i hi
    rw [Tree.unlocated, Tree.toList_map, List.map_map]
    refine List.map_congr_left fun x hx => ?_
    have hplace : (if i.headers.encryption.isEncrypted ∧ x.2.compressedSize ≠ 0 then
        x.2.dataOffset else none) = if i.locator.encryption.isEncrypted ∧
          x.2.compressedSize ≠ 0 then
            (i.locator.locate s x.2.unlocated (i.tree.nameOf x.2)).toOption else none := by
      by_cases h : i.headers.encryption.isEncrypted ∧ x.2.compressedSize ≠ 0
      · rw [if_pos h, (hi.entries x.1 x.2 hx).dataOffset_eq h.1 h.2]
        exact (if_pos h).symm
      · rw [if_neg h]
        exact (if_neg h).symm
    rw [rewritten, hplace]
    rfl
  rw [hunlocated j hj, hunlocated i hi, hlocator, htree]

/-! ## Using and flushing -/

theorem reaches_marked (h : i.tree.WellFormed) (codec : Codec) (s : Stream) (uses : List Use) :
    Reaches s i (i.useAll codec s uses).markDirty.2 := by
  have hused := useAll_reaches (s := s) h codec uses
  exact hused.trans (use_reaches (hused.wellFormed h) codec .markDirty)

theorem sameArchive_marked (codec : Codec) (s : Stream) (i : Index) (uses : List Use) :
    i.SameArchive (i.useAll codec s uses).markDirty.2 :=
  (useAll_sameArchive codec s i uses).trans (use_sameArchive codec s _ .markDirty)

theorem dirty_of_flush {content content' : ByteArray}
    (h : i.markDirty.2.flush content = (.ok (), j, content')) :
    i.markDirty.2.flags.dirty = true := by
  unfold markDirty at h ⊢
  by_cases hro : i.flags.readOnly = true
  · rw [if_pos hro, Index.flush, if_pos hro] at h
    cases h
  · rw [if_neg hro]

/-- After any uses, an index that may be written and whose entries can be counted is flushed, and
the file ends with the trailer and the comment that the index had before them, without the
signature. -/
theorem Obtained.exists_flush_marked (h : Obtained i) (hro : i.flags.readOnly = false)
    (hcount : i.tree.entries.length ≤ 0xFFFF) (codec : Codec) (s : Stream) (uses : List Use)
    (content : ByteArray) : ∃ j content',
      (i.useAll codec s uses).markDirty.2.flush content = (.ok (), j, content') ∧
        j.headers = i.unsigned.headers ∧
        content'.data.toList.drop (j.directoryOffset.toNat + j.directorySize.toNat) =
          i.unsigned.trailer.encode ++ i.unsigned.headers.comment := by
  have hreaches := reaches_marked h.laidOut.tree codec s uses
  obtain ⟨hheaders, hoffset, -⟩ := sameArchive_marked codec s i uses
  have hr : Rewritable (i.useAll codec s uses).markDirty.2 :=
    ((h.useAll codec s uses).use codec s .markDirty).rewritable
  have hwritable : (i.useAll codec s uses).flags.readOnly = false := by
    rcases (useAll_reaches (s := s) h.laidOut.tree codec uses).flags with hf | ⟨-, hf⟩ <;>
      rw [hf] <;> exact hro
  have hmark := markDirty_of_writable hwritable
  generalize (i.useAll codec s uses).markDirty.2 = live at hreaches hheaders hoffset hr hmark
  have hlength := Tree.length_entries_of_unlocated hreaches.unlocated
  have hkept : live.unsigned.headers = i.unsigned.headers :=
    congrArg Headers.dropSignature hheaders
  have htrailer : live.unsigned.trailer = i.unsigned.trailer :=
    trailer_congr hkept hoffset hlength (directory_eq_of_unlocated hreaches.unlocated)
  obtain ⟨j, content', hf⟩ := hr.exists_flush (by rw [hmark]; exact hwritable) (by rw [hmark])
    (by rw [hlength]; exact hcount) content
  obtain ⟨hj, hjtrailer, hdrop, -⟩ := hr.flush_written (by rw [hmark]) hf
  refine ⟨j, content', hf, hj.trans hkept, ?_⟩
  rw [hdrop, hjtrailer, htrailer, hj, hkept]

/-! ## Opening, using, flushing and reopening -/

/-- **A flushed archive is read back as it was written, with what was opened.** An archive is opened
and used in any way; it is marked as changed and its directory is rewritten. If no signature starts
in the trailer and comment that were written, then the archive has an index, with the directory and
the headers of the one that was flushed, and it lists the same names and entries with the same slots
in the same order. All of that is what was opened: the directory is where it was, the headers are
those of the archive that was opened but for a directory signature, comment and extended header
included, and the files are the same whatever has been located by the uses. Times are gone, and
payloads are located only if the archive is encrypted. A comment of at most eight bytes cannot hold
a signature. -/
theorem flush_reopen {options : Options} {path : String} {place : Place}
    {content : ByteArray} (hopen : place.open options codec path = (.ok i, .file content))
    (uses : List Use) {content' : ByteArray}
    (hflush : (i.useAll codec (.ofByteArray content) uses).markDirty.2.flush content =
      (.ok (), j, content'))
    (hcomment : 8 < j.headers.comment.length → ∀ k, 1 ≤ k → k ≤ j.headers.comment.length →
      Bytes.field content'.data.toList (j.directoryOffset.toNat + j.directorySize.toNat + k) 4 ≠
        Trailer.signature)
    {options' : Options} (hinit : options'.init = .basic) (codec' : Codec) :
    ∃ k, build options' codec' (.ofByteArray content') = .ok k ∧
      (k.directoryOffset = j.directoryOffset ∧ k.directorySize = j.directorySize ∧
        k.headers = j.headers ∧ k.contents = j.rewrittenContents) ∧
      (k.directoryOffset = i.directoryOffset ∧ k.headers = i.headers.dropSignature ∧
        i.headers.CarriedOver k.headers ∧ k.contents = i.rewrittenContents) := by
  have hi := open_coherent hopen
  have hlive := (hi.useAll codec uses).markDirty
  have hreaches := reaches_marked hi.tree codec (.ofByteArray content) uses
  have hsame := sameArchive_marked codec (.ofByteArray content) i uses
  have hdirty := dirty_of_flush hflush
  generalize (i.useAll codec (.ofByteArray content) uses).markDirty.2 = live
    at hlive hreaches hsame hdirty hflush
  obtain ⟨hheaders, hoffset, -⟩ := hsame
  have hf := hlive.flush hdirty hflush
  have hwritten : j.headers = live.unsigned.headers := by rw [hf.index]
  have hkept : live.unsigned.headers = i.headers.dropSignature :=
    congrArg Headers.dropSignature hheaders
  obtain ⟨hreadable, hdisk⟩ := Headers.ofComment_dropSignature hlive.readable
  have w := hlive.written hf fun k hk hk' => by
    rw [← hf.drop_bytes hlive, Bytes.field, List.drop_drop]
    exact hcomment (by rw [hwritten]; omega) k (by omega) (by rw [hwritten]; exact hk')
  have hh : Headers.ofComment (.ofDisk live.unsigned.trailer.disk) live.unsigned.headers.comment =
      .ok live.unsigned.headers := by
    rw [(trailer_spec hdisk).2]
    exact hreadable
  obtain ⟨k, hk, hoffset', hsize, hread, hlisted⟩ :=
    hlive.unsigned.build_rewritten w hh rfl hinit codec'
  have hcontents : live.unsigned.rewrittenContents = i.rewrittenContents :=
    hi.rewrittenContents_eq hlive.unsigned ((locator_unsigned live).trans hreaches.locator)
      hreaches.unlocated
  refine ⟨k, hk, ⟨?_, ?_, hread.trans hwritten.symm, ?_⟩, hoffset'.trans hoffset,
    hread.trans hkept, ?_, hlisted.trans hcontents⟩
  · rw [hoffset', hf.index]
  · rw [hsize, hf.index]
    rfl
  · rw [hlisted, hf.index]
    rfl
  · rw [hread, hkept]
    exact Headers.carriedOver_dropSignature hi.readable

end Index

/-! ## An archive that is signed and encrypted -/

namespace SignedArchive

def key : EncryptionHeader :=
  ⟨List.replicate 16 0x11, List.replicate 16 (List.replicate 16 7)⟩

/-- The headers of the archive: its comment declares a table of keys and a directory signature, and
holds both. -/
def headers : Headers where
  encryption := .streamCipherKeyTable
  signing := .directorySigned
  extended := some ⟨3, 1⟩
  signature := some ⟨List.replicate 256 0x5A⟩
  encryptionHeader := some key
  comment := (ExtendedHeader.mk 3 1).encode ++
    ((SignatureHeader.mk (List.replicate 256 0x5A)).encode ++ key.encode)

/-- What is left of the headers without the signature. -/
def unsignedHeaders : Headers where
  encryption := .streamCipherKeyTable
  extended := some ⟨3, 0⟩
  encryptionHeader := some key
  comment := (ExtendedHeader.mk 3 0).encode ++ key.encode

/-- A file and an empty one. -/
def files : List PackedFile := [Packed.plain [0x62] [1, 2, 3], Packed.plain [0x41] []]

def bytes : Bytes := Packed.archive files headers.comment

theorem length_key : key.encode.length = 276 := by
  rw [EncryptionHeader.length_encode, List.length_flatten]
  rfl

theorem length_before_key : ((ExtendedHeader.mk 3 1).encode ++
    (SignatureHeader.mk (List.replicate 256 0x5A)).encode).length = 268 := by
  rw [List.length_append, ExtendedHeader.length_encode, SignatureHeader.length_encode,
    List.length_replicate]

theorem length_comment : headers.comment.length = 544 := by
  rw [headers, ← List.append_assoc, List.length_append, length_before_key, length_key]

theorem length_unsigned : unsignedHeaders.comment.length = 284 := by
  rw [unsignedHeaders, List.length_append, ExtendedHeader.length_encode, length_key]

theorem dropSignature_headers : headers.dropSignature = unsignedHeaders := by
  have hrest : headers.comment.drop 268 = key.encode := by
    rw [headers, ← List.append_assoc]
    exact List.drop_left' length_before_key
  rw [Headers.dropSignature_of_signed (x := ⟨3, 1⟩) rfl rfl, hrest]
  rfl

theorem trailer_eq : Packed.trailer files headers.comment = .singleVolume 2 65 94 544 := by
  rw [Packed.trailer, length_comment]
  rfl

theorem survey_bytes : Index.survey (.ofBytes bytes) =
    .ok (headers, .singleVolume 2 65 94 544, Listing.ofRows (Packed.rows files)) := by
  have hfiles : ∀ f ∈ files, f.Valid := by
    simp only [files, List.forall_mem_cons]
    exact ⟨Packed.valid_plain ⟨0x62, rfl, by decide⟩ (by decide) (by decide),
      Packed.valid_plain ⟨0x41, rfl, by decide⟩ (by decide) (by decide), List.forall_mem_nil _⟩
  have hlen := length_comment
  have hsize : (Packed.archive files headers.comment).length ≤ maxArchiveSize := by
    rw [Packed.length_archive, hlen]
    decide
  have w := Packed.written_of_unique hfiles (by omega) hsize fun k hk _ => by
    refine Trailer.field_ne_signature_of_notMem (n := 1) ?_ (by omega)
    rw [trailer_eq]
    decide +kernel
  have hheaders : Headers.ofComment .none headers.comment = .ok headers :=
    toOption_eq_some_iff.mp (by decide +kernel)
  have hdisk : Encryption.ofDisk (Packed.trailer files headers.comment).disk = .none := by
    rw [trailer_eq]
    decide
  rw [← trailer_eq]
  exact Index.survey_written w (by rw [hdisk]; exact hheaders)

/-- What is read back about an entry. -/
def row (names : NamePool) (x : Path × Entry) : Path × Bytes × UInt32 × Option UInt32 :=
  (x.1, names.get x.2.name, x.2.headerOffset,
    if x.2.compressedSize ≠ 0 then x.2.dataOffset else none)

theorem headers_unsigned {i : Index} (h : i.headers = headers) :
    i.unsigned.headers = unsignedHeaders := by
  rw [Index.unsigned, h, dropSignature_headers]

theorem trailer_unsigned {i : Index} (hheaders : i.headers = headers)
    (hoffset : i.directoryOffset = 65) (hcount : i.tree.entries.length = 2)
    (hrecords : i.recordsSize = 94) : i.unsigned.trailer = .singleVolume 2 65 94 284 := by
  have hdropped := headers_unsigned hheaders
  have hextended : i.unsigned.headers.extended.isNone = false := by
    rw [hdropped]
    rfl
  rw [Index.trailer_of_extended hextended, hdropped, length_unsigned]
  show Trailer.singleVolume (.ofNat i.tree.entries.length) i.directoryOffset
    (.ofNat i.recordsSize) _ = _
  rw [hcount, hoffset, hrecords]
  rfl

theorem open_bytes :
    let content := bytes.toByteArray
    let codec : Codec := fun _ stored _ => .ok stored
    ∃ i, (Place.file content).open { readOnly := false, init := .full } codec "a.pak" =
        (.ok i, .file content) ∧ i.headers = headers ∧ i.tree.entries.length = 2 ∧
      i.unsigned.trailer = .singleVolume 2 65 94 284 ∧ i.tree.toList.map (row i.tree.names) =
        [([[0x61]], [0x61], 34, none), ([[0x62]], [0x62], 0, some 31)] := by
  intro content codec
  obtain ⟨i, hi, hheaders, hoffset, hrows⟩ : ∃ i,
      Index.build { readOnly := false, init := .full } codec (.ofByteArray content) = .ok i ∧
        i.headers = headers ∧ i.directoryOffset = 65 ∧ i.tree.toList.map (row i.tree.names) =
          [([[0x61]], [0x61], 34, none), ([[0x62]], [0x62], 0, some 31)] :=
    Index.build_of_map _ codec row survey_bytes (fun _ _ _ _ => rfl) (by decide +kernel)
  have hsize : content.size ≠ 0 := by
    have hlength := (Stream.size_ofBytes bytes).symm.trans (Stream.size_ofByteArray content)
    have hpacked : bytes.length = _ := Packed.length_archive files headers.comment
    omega
  have hcount : i.tree.entries.length = 2 := by
    have hlength := congrArg List.length hrows
    rw [List.length_map] at hlength
    rw [Tree.entries, List.length_map, hlength]
    rfl
  have hrecords : i.recordsSize = 94 := by
    have hsum := congrArg (fun l => (l.map fun x => 46 + x.2.1.length).sum) hrows
    rw [List.map_map] at hsum
    exact hsum
  clear_value content
  obtain ⟨kept, hopen⟩ := Index.open_of_build (Index.opening_file rfl rfl hsize) hi "a.pak"
  exact ⟨_, hopen, hheaders, hcount, trailer_unsigned hheaders hoffset hcount hrecords, hrows⟩

end SignedArchive

namespace Index

/-- An archive with an extended header, a directory signature and a table of keys in its comment is
rewritten, after one of its two files has been located. -/
theorem flush_reopen_signed :
    let content := SignedArchive.bytes.toByteArray
    let codec : Codec := fun _ stored _ => .ok stored
    ∃ i j content' k, (Place.file content).open { readOnly := false, init := .full } codec "a.pak" =
        (.ok i, .file content) ∧
      (i.useAll codec (.ofByteArray content) [.resolve "b", .validateAll]).markDirty.2.flush
        content = (.ok (), j, content') ∧
      build {} codec (.ofByteArray content') = .ok k ∧
      i.headers = SignedArchive.headers ∧ k.headers = SignedArchive.unsignedHeaders ∧
      k.contents.map (fun x => (x.1, x.2.1, x.2.2.headerOffset, x.2.2.dataOffset)) =
        [([[0x61]], [0x61], 34, none), ([[0x62]], [0x62], 0, some 31)] := by
  intro content codec
  obtain ⟨i, hopen, hheaders, hcount, htrailer, hrows⟩ := SignedArchive.open_bytes
  change (Place.file content).open _ codec _ = (_, .file content) at hopen
  clear_value content codec
  obtain ⟨hobtained, hwritable, -⟩ := Place.obtained_of_indexAt (congrArg Prod.fst hopen)
  obtain ⟨j, content', hflush, hj, hdrop⟩ := hobtained.exists_flush_marked hwritable
    (hcount.trans_le (by decide)) codec (.ofByteArray content) [.resolve "b", .validateAll] content
  have hdropped := SignedArchive.headers_unsigned hheaders
  have hunique : ∀ k, 1 ≤ k → k ≤ j.headers.comment.length → Bytes.field content'.data.toList
      (j.directoryOffset.toNat + j.directorySize.toNat + k) 4 ≠ Trailer.signature := by
    intro k hk _
    rw [Bytes.field, ← List.drop_drop, hdrop, htrailer, hdropped]
    exact Trailer.field_ne_signature_of_notMem (n := 1) (by decide +kernel) hk
  obtain ⟨k, hk, -, -, hread, -, hlisted⟩ := flush_reopen hopen _ hflush (fun _ => hunique)
    (show ({} : Options).init = .basic from rfl) codec
  refine ⟨i, j, content', k, hopen, hflush, hk, hheaders, hread.trans hdropped, ?_⟩
  have hencrypted : i.headers.encryption.isEncrypted = true := by
    rw [hheaders]
    rfl
  rw [hlisted, ← hrows, rewrittenContents, List.map_map]
  refine List.map_congr_left fun x _ => ?_
  simp only [Function.comp_apply, rewritten, hencrypted, true_and]
  rfl

end Index

end PakIndex
