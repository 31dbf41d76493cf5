import PakIndex.Proofs.Archive.Session
import PakIndex.Proofs.Index.Refused
import PakIndex.Proofs.Index.Shrink

/-!
# Files that mirror their index

* `Index.directory_eq_of_map`: what the bytes of a rewritten directory depend on.
* `Index.Mirrors`: whether a file holds what a flush of its index would write.
* **`Index.Mirrors.evolves`**: such a file stays as it is, however the index is used and flushed.
* **`Index.Mirrors.reopened`**: so it does when it is opened again, if its trailer is found.
* **`Index.flush_settles`**: a flush that writes leaves such a file.
-/

namespace PakIndex.Index

variable {i j k : Index} {s : Stream} {codec : Codec} {content content' : ByteArray}

/-! ## What a directory depends on -/

/-- The bytes of the directory that describes entries listed with their names. -/
def directoryOf (l : List (Path × Bytes × Entry)) : Bytes :=
  (l.mergeSort fun a b => a.2.2.headerOffset ≤ b.2.2.headerOffset).flatMap fun y =>
    y.2.2.toRecord.encode y.2.1

/-- **What a directory depends on**: the order in which entries are listed, their headers, and what
is written about each. -/
theorem directory_eq_of_map {g : Path × Entry → Path × Bytes × Entry}
    (hheader : ∀ x, (g x).2.2.headerOffset = x.2.headerOffset)
    (hencode : ∀ x, (g x).2.2.toRecord.encode (g x).2.1 =
      x.2.toRecord.encode (i.tree.nameOf x.2)) :
    i.directory = directoryOf (i.tree.toList.map g) := by
  have hsorted : (i.tree.toList.map g).mergeSort
      (fun a b => a.2.2.headerOffset ≤ b.2.2.headerOffset) = i.tree.byHeader.map g := by
    rw [Tree.byHeader, Tree.sortByHeader, List.map_mergeSort]
    intro x _ y _
    rw [hheader, hheader]
  rw [directoryOf, hsorted, List.flatMap_map, directory]
  exact List.flatMap_congr fun x _ => (hencode x).symm

theorem directory_eq_of_contents (h : k.contents = j.rewrittenContents) :
    k.directory = j.directory := by
  have hk : k.directory = directoryOf k.contents := directory_eq_of_map (fun _ => rfl) fun _ => rfl
  have hj : j.directory = directoryOf j.rewrittenContents :=
    directory_eq_of_map (fun _ => rfl) fun _ => rfl
  rw [hk, hj, h]

theorem directory_eq_of_unlocated (h : j.tree.unlocated = i.tree.unlocated) :
    j.directory = i.directory := by
  have hunlocated : ∀ i : Index, i.directory = directoryOf (i.tree.unlocated.toList.map fun x =>
      (x.1, i.tree.unlocated.nameOf x.2, x.2)) := by
    intro i
    rw [Tree.unlocated, Tree.toList_map, List.map_map]
    exact directory_eq_of_map (fun _ => rfl) fun _ => rfl
  rw [hunlocated, hunlocated, h]

theorem trailer_congr (hheaders : j.headers = i.headers)
    (hoffset : j.directoryOffset = i.directoryOffset)
    (hcount : j.tree.entries.length = i.tree.entries.length)
    (hdirectory : j.directory = i.directory) : j.trailer = i.trailer := by
  rw [trailer, trailer, closing, closing, hheaders, hoffset, hcount, hdirectory]

/-! ## Files that mirror their index -/

/-- Whether a file mirrors its index: it holds what a flush of the index would write, and there is
no directory signature to be dropped. -/
structure Mirrors (content : ByteArray) (i : Index) : Prop where
  coherent : i.Coherent (.ofByteArray content)
  unsigned : i.unsigned = i
  bytes : content.data.toList = content.data.toList.take i.directoryOffset.toNat ++
    (i.directory ++ (i.trailer.encode ++ i.headers.comment))

namespace Mirrors

theorem congr (h : Mirrors content i) (hj : j.Coherent (.ofByteArray content))
    (hheaders : j.headers = i.headers) (hoffset : j.directoryOffset = i.directoryOffset)
    (hcount : j.tree.entries.length = i.tree.entries.length)
    (hdirectory : j.directory = i.directory) : Mirrors content j := by
  have hsigning : j.headers.signing = .none := by
    rw [hheaders]
    exact (unsigned_eq_iff h.coherent.readable).mp h.unsigned
  refine ⟨hj, (unsigned_eq_iff hj.readable).mpr hsigning, ?_⟩
  rw [hoffset, hdirectory, trailer_congr hheaders hoffset hcount hdirectory, hheaders]
  exact h.bytes

theorem use (h : Mirrors content i) (codec : Codec) (u : Use) :
    Mirrors content (Index.use codec (.ofByteArray content) i u) := by
  obtain ⟨hheaders, hoffset, -⟩ := use_sameArchive codec (.ofByteArray content) i u
  have hunlocated :=
    (use_reaches (s := .ofByteArray content) h.coherent.tree codec u).unlocated
  exact h.congr (h.coherent.use codec u) hheaders hoffset
    (Tree.length_entries_of_unlocated hunlocated) (directory_eq_of_unlocated hunlocated)

theorem of_flushed (h : i.Coherent (.ofByteArray content)) (hf : Flushed content content' i j) :
    Mirrors content' j := by
  have hj := h.flushed hf
  have htake : content'.data.toList.take i.directoryOffset.toNat =
      content.data.toList.take i.directoryOffset.toNat := by
    rw [hf.bytes]
    exact List.take_left' hf.before
  have hbytes := hf.bytes
  rw [← htake] at hbytes
  have hsigning : j.headers.signing = .none := by
    rw [hf.index]
    exact (Headers.signature_dropSignature h.readable).1
  refine ⟨hj, (unsigned_eq_iff hj.readable).mpr hsigning, ?_⟩
  rw [hf.index]
  exact hbytes

theorem flushed (h : Mirrors content i) (hdirty : i.flags.dirty = true)
    (hf : i.flush content = (.ok (), j, content')) : content' = content ∧ Mirrors content j := by
  have hwritten := h.coherent.flush hdirty hf
  have hsame : content' = content := by
    apply ByteArray.ext
    apply Array.toList_inj.mp
    rw [hwritten.bytes, h.unsigned]
    exact h.bytes.symm
  refine ⟨hsame, ?_⟩
  rw [← hsame]
  exact of_flushed h.coherent hwritten

/-- **A flush leaves such a file as it is.** -/
theorem flush (h : Mirrors content i) :
    (i.flush content).2.2 = content ∧ Mirrors content (i.flush content).2.1 := by
  rcases flush_cases i content with
    ⟨-, hf⟩ | ⟨-, ⟨-, hf⟩ | ⟨hdirty, ⟨-, hf⟩ | ⟨-, -, hf⟩ | ⟨-, hf⟩⟩⟩
  · rw [hf]
    exact ⟨rfl, h⟩
  · rw [hf]
    exact ⟨rfl, h⟩
  · rw [hf, h.unsigned]
    exact ⟨rfl, h⟩
  · rw [hf, h.unsigned]
    exact ⟨rfl, h⟩
  · rw [hf]
    exact h.flushed hdirty hf

theorem flush_of_writable (h : Mirrors content i) (hro : i.flags.readOnly = false)
    (hcount : i.tree.entries.length ≤ 0xFFFF) : ∃ j, i.flush content = (.ok (), j, content) := by
  have hsame := h.flush.1
  rcases flush_cases i content with
    ⟨hf, -⟩ | ⟨-, ⟨-, hf⟩ | ⟨-, ⟨hf, -⟩ | ⟨-, hf, -⟩ | ⟨-, hf⟩⟩⟩
  · cases hf.symm.trans hro
  · exact ⟨i, hf⟩
  · omega
  · have := h.coherent.unsigned.commentShort
    omega
  · rw [hf] at hsame ⊢
    exact ⟨_, congrArg (fun c => (_, _, c)) hsame⟩

/-- **A file that mirrors its index stays as it is**, however the index is used and flushed. -/
theorem evolves (h : Mirrors content i) (he : Evolves i content j content') :
    content' = content ∧ Mirrors content j := by
  induction he with
  | built path => exact ⟨rfl, h.congr (h.coherent.memorize path) rfl rfl rfl rfl⟩
  | use codec u _ ih =>
    obtain ⟨rfl, h⟩ := ih
    exact ⟨rfl, h.use codec u⟩
  | flush _ ih =>
    obtain ⟨rfl, h⟩ := ih
    exact h.flush

/-! ## Opening such a file again -/

theorem written (h : Mirrors content i)
    (hl : PakIndex.locate (.ofByteArray content) =
      .ok ⟨i.trailer, i.directoryOffset.toNat + i.directory.length, content.size⟩) :
    Written (.ofByteArray content) (content.data.toList.take i.directoryOffset.toNat) i.rows
      i.trailer i.headers.comment := by
  have hoffset : (content.data.toList.take i.directoryOffset.toNat).length =
      i.directoryOffset.toNat := by
    have hinside := h.coherent.directoryOffset_le
    rw [Stream.size_ofByteArray, ← ByteArray.size_data, ← Array.length_toList] at hinside
    rw [List.length_take]
    exact min_eq_left hinside
  have hdirectory := toNat_length_directory h.coherent.records
  have hcomment : i.trailer.commentLength.toNat = i.headers.comment.length :=
    UInt16.toNat_ofNat_of_lt' h.coherent.commentShort
  have hdisk := (Headers.ofComment_dropSignature h.coherent.readable).2
  have hheaders : i.headers.dropSignature = i.headers := congrArg Index.headers h.unsigned
  rw [hheaders] at hdisk
  have hbytes := (Stream.toList_ofByteArray content).trans h.bytes
  have hdrop : (Stream.ofByteArray content).toList.drop
      (i.directoryOffset.toNat + i.directory.length) = i.trailer.encode ++ i.headers.comment := by
    rw [hbytes, ← List.append_assoc]
    refine List.drop_left' ?_
    rw [List.length_append, hoffset]
  obtain ⟨hsmall, -⟩ := locate_eq_ok_iff.mp hl
  rw [← Stream.size_ofByteArray] at hl
  have hlast := (locate_written_iff hsmall hdrop hcomment).mp hl
  refine ⟨?_, hsmall, h.coherent.rows_writable, (trailer_spec hdisk).1, hoffset.symm, ?_, hcomment,
    fun k hk => hlast k (by omega)⟩
  · rw [hbytes, directory_eq]
  · rw [← directory_eq]
    exact hdirectory

/-- **A file that mirrors an index mirrors the one that is built of it**, if its trailer is
found. -/
theorem reopened (h : Mirrors content i)
    (hl : PakIndex.locate (.ofByteArray content) =
      .ok ⟨i.trailer, i.directoryOffset.toNat + i.directory.length, content.size⟩)
    {options : Options} (hinit : options.init = .basic) (codec : Codec) :
    ∃ k, build options codec (.ofByteArray content) = .ok k ∧ Mirrors content k ∧
      k.tree.entries.length = i.tree.entries.length := by
  obtain ⟨hcomment, hlegacy⟩ := Headers.ofComment_dropSignature h.coherent.readable
  have hheaders : i.headers.dropSignature = i.headers := congrArg Index.headers h.unsigned
  rw [hheaders] at hcomment hlegacy
  rw [← (trailer_spec hlegacy).2] at hcomment
  obtain ⟨k, hk, hoffset, -, hkept, hcontents⟩ :=
    h.coherent.build_rewritten (h.written hl) hcomment rfl hinit codec
  have hcount : k.tree.entries.length = i.tree.entries.length := by
    have hlength := congrArg List.length hcontents
    simp only [contents, rewrittenContents, List.length_map] at hlength
    rw [Tree.entries, Tree.entries, List.length_map, List.length_map, hlength]
  exact ⟨k, hk, h.congr (build_coherent hk) hkept hoffset hcount
    (directory_eq_of_contents hcontents), hcount⟩

end Mirrors

theorem opening_file {options : Options} (hro : options.readOnly = false)
    (hnew : options.createNew = false) (hsize : content.size ≠ 0) :
    (Place.file content).opening options = .existing content := by
  simp [Place.opening, Place.writeOpening, hro, hnew, hsize]

theorem open_of_build {options : Options}
    (hopening : (Place.file content).opening options = .existing content)
    (hk : build options codec (.ofByteArray content) = .ok k) (path : String) :
    ∃ kept, (Place.file content).open options codec path =
      (.ok { k with path := kept }, .file content) := by
  refine ⟨if options.memorizePath then some path else none, ?_⟩
  simp only [Place.open, Place.indexAt, Place.afterOpening, hopening, hk]
  rfl

/-- **Rewriting settles after one flush.** A file is opened, and its index is used and flushed in
any order. Once a flush has written, nothing that is done with the index changes the file any more,
and if the trailer is found, neither does opening the file again, marking it as changed and flushing
it. -/
theorem flush_settles (h : Live codec i content) (hdirty : i.flags.dirty = true)
    (hf : i.flush content = (.ok (), j, content')) :
    (∀ k content'', Evolves j content' k content'' → content'' = content') ∧
    (PakIndex.locate (.ofByteArray content') =
        .ok ⟨j.trailer, j.directoryOffset.toNat + j.directorySize.toNat, content'.size⟩ →
      ∀ (options : Options) (codec' : Codec) (path : String), options.init = .basic →
        options.readOnly = false → options.createNew = false →
        ∃ k k', (Place.file content').open options codec' path = (.ok k, .file content') ∧
          k.markDirty.1 = .ok () ∧ k.markDirty.2.flush content' = (.ok (), k', content')) := by
  have hflushed := h.coherent.flush hdirty hf
  have hmirrors := Mirrors.of_flushed h.coherent hflushed
  refine ⟨fun k content'' he => (hmirrors.evolves he).1,
    fun hl options codec' path hinit hro hnew => ?_⟩
  have hdirectory : j.directorySize.toNat = j.directory.length := by
    rw [hflushed.toNat_directorySize h.coherent, hflushed.index]
    exact (length_directory i).symm
  rw [hdirectory] at hl
  obtain ⟨k, hk, hkept, hcount⟩ := hmirrors.reopened hl hinit codec'
  have hsize : content'.size ≠ 0 := by
    rw [hflushed.size_eq]
    omega
  obtain ⟨kept, hopen⟩ := open_of_build (opening_file hro hnew hsize) hk path
  obtain ⟨-, hwritable, -⟩ := Place.obtained_of_indexAt (congrArg Prod.fst hopen)
  rw [hro] at hwritable
  have hmarked := (hkept.evolves (.built kept)).2.use codec' .markDirty
  change Mirrors content' (markDirty _).2 at hmarked
  have hmark := markDirty_of_writable hwritable
  obtain ⟨k', hk'⟩ := hmarked.flush_of_writable (by rw [hmark]; exact hwritable) (by
    rw [hmark]
    show k.tree.entries.length ≤ 0xFFFF
    rw [hcount, hflushed.index]
    exact hflushed.countable)
  refine ⟨_, k', hopen, ?_, hk'⟩
  rw [markDirty, hwritable]
  rfl

theorem Coherent.locate_flushed (h : i.Coherent (.ofByteArray content))
    (hf : Flushed content content' i j) (hshort : j.headers.comment.length ≤ 8) :
    PakIndex.locate (.ofByteArray content') =
      .ok ⟨j.trailer, j.directoryOffset.toNat + j.directorySize.toNat, content'.size⟩ := by
  have hheaders : j.headers = i.unsigned.headers := by rw [hf.index]
  have hl := (h.written hf fun k hk hk' => by rw [hheaders] at hshort; omega).locate
  have hdirectory :
      (i.unsigned.rows.flatMap Listing.Row.encode).length = j.directorySize.toNat := by
    rw [hf.toNat_directorySize h, ← directory_eq]
    exact length_directory i.unsigned
  rw [hdirectory, hf.before, Stream.size_ofByteArray] at hl
  rw [hl, hf.index]
  rfl

/-- Of two files under one path the directory keeps the second, and from then on the file stays as
it is. -/
theorem flush_settles_shadowed :
    let content := (Packed.archive [Packed.plain [0x61] [1], Packed.plain [0x41] []]
      [0x68, 0x69]).toByteArray
    let codec : Codec := fun _ stored _ => .ok stored
    ∃ i j content', Live codec i content ∧ i.flags.dirty = true ∧ i.size = 1 ∧
      i.flush content = (.ok (), j, content') ∧
      ((j.useAll codec (.ofByteArray content') [.validateAll, .markDirty]).flush content').2.2 =
        content' ∧
      ∃ k k', (Place.file content').open { readOnly := false } codec "a.pak" =
          (.ok k, .file content') ∧
        k.markDirty.1 = .ok () ∧ k.markDirty.2.flush content' = (.ok (), k', content') := by
  intro content codec
  let options : Options := { readOnly := false }
  have hrun : ((Place.file content).indexAt options codec "a.pak").toOption.map (fun i =>
      (i.markDirty.2.flags.dirty, i.markDirty.2.size, (i.markDirty.2.flush content).1.isOk,
        decide ((i.markDirty.2.flush content).2.1.headers.comment.length ≤ 8))) =
      some (true, 1, true, true) := by decide +kernel
  have hsize : content.size ≠ 0 := by decide +kernel
  clear_value content codec
  obtain ⟨i, hi, hrun⟩ := Option.map_eq_some_iff.mp hrun
  simp only [Prod.mk.injEq, decide_eq_true_eq] at hrun
  obtain ⟨hdirty, hone, hflush, hshort⟩ := hrun
  have hopen : (Place.file content).open options codec "a.pak" = (.ok i, .file content) :=
    Prod.ext (toOption_eq_some_iff.mp hi)
      (by rw [Place.open, Place.afterOpening, opening_file rfl rfl hsize])
  have hlive := (Live.opened hopen).use .markDirty
  obtain ⟨u, hflush⟩ := exists_of_isOk hflush
  have hf : i.markDirty.2.flush content = (.ok (), _, _) := Prod.ext hflush rfl
  have hl := hlive.coherent.locate_flushed (hlive.coherent.flush hdirty hf) hshort
  obtain ⟨hevolves, hreopen⟩ := flush_settles hlive hdirty hf
  refine ⟨_, _, _, hlive, hdirty, hone, hf, ?_, hreopen hl options codec "a.pak" rfl rfl rfl⟩
  exact hevolves _ _ ((((Evolves.built _).use codec .validateAll).use codec .markDirty).flush)

end PakIndex.Index
