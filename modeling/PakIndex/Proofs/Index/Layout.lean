import PakIndex.Proofs.Archive.RoundTrip
import PakIndex.Proofs.Index.Flush
import PakIndex.Proofs.Index.Reach
import PakIndex.Proofs.Index.Reopen
import PakIndex.Proofs.Tree.Partition

/-!
# The layout of an archive

* `Entry.Within`: header, payload and slot of an entry lie one behind the other and before the
  directory.
* `Index.Obtained`: how indexes come about, over streams that may change in between.
* **`Index.obtained_within`**: every entry of such an index lies within its archive.
* **`Index.slots_divide`**: the slots of a tree divide the data among its entries when they are
  refreshed, and so do those of every index that is built.
-/

namespace PakIndex

/-- Whether an entry lies in the part of an archive that ends at `stop`: its header stands before
the end of its slot, a payload without compression has one size, and a payload whose place is known
stands behind header and name and ends before `stop`. -/
structure Entry.Within (stop : UInt32) (name : Bytes) (e : Entry) : Prop where
  header_le : e.headerOffset ≤ e.slotEnd
  slotEnd_le : e.slotEnd ≤ stop
  stored : e.method.code = 0 ∨ e.method.code = 13 → e.compressedSize = e.uncompressedSize
  placed : ∀ d, e.dataOffset = some d →
    e.headerOffset.toNat + 30 + name.length ≤ d.toNat ∧
      d.toNat + e.compressedSize ≤ stop.toNat ∧ (0 < e.compressedSize → d < stop)

namespace Entry

variable {l : Locator} {s : Stream} {e : Entry} {name : Bytes} {d : UInt32}

theorem Within.locate (h : e.Within l.directoryOffset name) (hd : l.locate s e name = .ok d) :
    Within l.directoryOffset name { e with dataOffset := some d } := by
  refine ⟨h.header_le, h.slotEnd_le, h.stored, ?_⟩
  rintro _ ⟨⟩
  exact Locator.locate_within hd

theorem Sound.size_eq {names : NamePool} (h : e.Sound l s names)
    (hcode : e.method.code = 0 ∨ e.method.code = 13) : e.compressedSize = e.uncompressedSize := by
  have hstored : e.method.isStored = true := by
    rw [← h.method]
    rcases hcode with hc | hc <;> rw [hc] <;> decide
  rw [compressedSize, uncompressedSize, (Locator.check_eq_ok_iff.mp h.checked).2 hstored]

end Entry

namespace Index

variable {i : Index} {s : Stream} {p : Path} {e : Entry} {d : UInt32}

/-! ## Entries within their archive -/

/-- Whether all entries of an index lie within its archive. -/
structure LaidOut (i : Index) : Prop where
  tree : i.tree.WellFormed
  entries : ∀ p e, (p, e) ∈ i.tree.toList → e.Within i.directoryOffset (i.tree.nameOf e)

theorem Coherent.laidOut (h : i.Coherent s) : i.LaidOut := by
  refine ⟨h.tree, fun p e he => ?_⟩
  have hsound := h.entries p e he
  have hheaders : ∀ x ∈ i.tree.toList, x.2.headerOffset ≤ i.directoryOffset := fun x hx =>
    UInt32.le_iff_toNat_le.mpr (h.entries x.1 x.2 hx).headerOffset_le
  have hbounds := Tree.slotOf_bounds h.tree.nodup_paths hheaders he
  rw [← h.slots p e he] at hbounds
  exact ⟨hbounds.1, hbounds.2, hsound.size_eq, fun d hd =>
    Locator.locate_within (hsound.located d hd)⟩

theorem LaidOut.headerOffset_le (h : i.LaidOut) :
    ∀ e ∈ i.tree.entries, e.headerOffset ≤ i.directoryOffset := by
  intro e he
  obtain ⟨x, hx, rfl⟩ := List.mem_map.mp he
  exact UInt32.le_trans (h.entries x.1 x.2 hx).header_le (h.entries x.1 x.2 hx).slotEnd_le

theorem LaidOut.located (h : i.LaidOut) (he : (p, e) ∈ i.tree.toList)
    (hd : i.locator.locate s e (i.tree.nameOf e) = .ok d) : (i.located p d).LaidOut := by
  refine ⟨h.tree.modify p fun _ => rfl, fun q x hx => ?_⟩
  rcases mem_located h.tree he hx with hx | ⟨rfl, rfl⟩
  · exact h.entries q x hx
  · exact (h.entries q e he).locate hd

theorem LaidOut.reaches {j : Index} (h : i.LaidOut) (hr : Reaches s i j) : j.LaidOut := by
  apply hr.preserves (P := LaidOut) h
  · intro j p e d hj he hd
    exact hj.located he hd
  · intro j hj
    exact ⟨hj.tree, hj.entries⟩

theorem LaidOut.flush (h : i.LaidOut) (content : ByteArray) : (i.flush content).2.1.LaidOut := by
  obtain ⟨htree, hoffset, -⟩ := flush_keeps i content
  refine ⟨?_, ?_⟩
  · rw [htree]
    exact h.tree
  · rw [htree, hoffset]
    exact h.entries

/-! ## How indexes come about -/

/-- How an index comes about: it is built or of a new archive, and it is used and flushed in any
order, over whatever the stream holds each time. -/
inductive Obtained : Index → Prop
  | build {i : Index} {options : Options} {codec : Codec} {s : Stream} :
    build options codec s = .ok i → Obtained i
  | create (options : Options) : Obtained (create options)
  | memorize {i : Index} (path : Option String) : Obtained i → Obtained { i with path := path }
  | use {i : Index} (codec : Codec) (s : Stream) (u : Use) :
    Obtained i → Obtained (use codec s i u)
  | flush {i : Index} (content : ByteArray) : Obtained i → Obtained (i.flush content).2.1

theorem Obtained.useAll (h : Obtained i) (codec : Codec) (s : Stream) (uses : List Use) :
    Obtained (i.useAll codec s uses) := by
  induction uses generalizing i with
  | nil => exact h
  | cons u uses ih => exact ih (h.use codec s u)

theorem Obtained.laidOut (h : Obtained i) : i.LaidOut := by
  -- The entries are laid out at first, and locating and flushing keep them so.
  induction h with
  | build h => exact (build_coherent h).laidOut
  | create options => exact (create_coherent options).laidOut
  | memorize path _ ih => exact ⟨ih.tree, ih.entries⟩
  | use codec s u _ ih => exact ih.reaches (use_reaches ih.tree codec u)
  | flush content _ ih => exact ih.flush content

/-- **Every entry lies within its archive**, however the index has been used: the header stands
before the end of the slot, which ends before the directory, and a payload whose place is known
stands between header and directory. Nothing is lost when the offset of a payload becomes a number
of 32 bits. -/
theorem obtained_within (h : Obtained i) :
    (∀ p e, (p, e) ∈ i.tree.toList → e.Within i.directoryOffset (i.tree.nameOf e)) ∧
    ∀ s e name d, i.locator.locate s e name = .ok d →
      i.locator.expectedOffset s e name = .ok d.toNat :=
  ⟨h.laidOut.entries, fun _ _ _ _ hd => (Locator.locate_eq_ok_iff_toNat.mp hd).1⟩

/-- A file that is located when its archive is opened lies within it after a flush. -/
theorem obtained_within_flushed :
    let bytes := Packed.archive [Packed.plain [0x61] [1, 2, 3]] []
    let codec : Codec := fun _ stored _ => .ok stored
    ∃ i e, build { init := .full, readOnly := false } codec (.ofBytes bytes) = .ok i ∧
      let j := (i.markDirty.2.flush bytes.toByteArray).2.1
      j.find? "a" = some e ∧ e.dataOffset = some 31 ∧
        e.Within j.directoryOffset (j.tree.nameOf e) := by
  intro bytes codec
  have hbuild : ((build { init := .full, readOnly := false } codec (.ofBytes bytes)).toOption.bind
      fun i => (i.markDirty.2.find? "a").map Entry.dataOffset) = some (some 31) := by decide +kernel
  obtain ⟨i, hi, hfind⟩ := Option.bind_eq_some_iff.mp hbuild
  obtain ⟨e, he, hd⟩ := Option.map_eq_some_iff.mp hfind
  have hi := toOption_eq_some_iff.mp hi
  have hmarked := (Obtained.build hi).use codec (.ofBytes bytes) .markDirty
  have hflushed := hmarked.flush bytes.toByteArray
  obtain ⟨htree, -⟩ := flush_keeps i.markDirty.2 bytes.toByteArray
  have hfind : (i.markDirty.2.flush bytes.toByteArray).2.1.find? "a" = some e := by
    rw [find?, htree]
    exact he
  exact ⟨i, e, hi, hfind, hd, (obtained_within hflushed).1 _ e
    (mem_of_find? hflushed.laidOut.tree hfind)⟩

/-! ## Slots -/

/-- **Slots divide the data among the entries.** In every tree that changes lead to, refreshing the
slots changes nothing but them, makes each end at the next header and the last at the directory, and
so makes them divide the data if no header lies behind it; to do it again changes nothing. In every
index that is built no header lies behind the data, so that the slots divide it. -/
theorem slots_divide :
    (∀ (raws : List Bytes) (changes : List Tree.Change),
      (∀ c ∈ changes, c.NamedBy (NamePool.ofNames raws).1) → ∀ stop,
        let t := (Tree.ofNames (NamePool.ofNames raws).2).run changes
        Tree.Refreshed stop t (t.refreshSlots stop)) ∧
    ∀ options codec s i, build options codec s = .ok i →
      (∀ e ∈ i.tree.entries, e.headerOffset ≤ i.directoryOffset) ∧
        (i.tree.entries ≠ [] → Partitions i.tree.entries i.directoryOffset) := by
  refine ⟨fun raws changes hc stop => (Tree.run_arranged hc).1.refreshed stop,
    fun options codec s i h => ?_⟩
  have hcoherent := build_coherent h
  have hheaders := hcoherent.laidOut.headerOffset_le
  exact ⟨hheaders, fun hne => Tree.partitions_entries hcoherent.tree.arranged hcoherent.slots hne
    hheaders⟩

/-- Four files in three folders, two of which have one header, and an archive with a file. -/
theorem slots_divide_tied :
    let raws : List Bytes := [[0x62, 0x2F, 0x63], [0x61], [0x42], [0x62, 0x5C, 0x64, 0x2F, 0x65]]
    let entry (i : Nat) (header : UInt32) : Entry := { (default : Entry) with
      name := (NamePool.ofNames raws).1.getD i default, headerOffset := header }
    let changes : List Tree.Change :=
      [.insert (entry 0 5), .insert (entry 1 3), .insert (entry 2 5), .insert (entry 3 9)]
    let t := (Tree.ofNames (NamePool.ofNames raws).2).run changes
    let bytes := Packed.archive [Packed.plain [0x61] [1, 2, 3]] []
    let codec : Codec := fun _ stored _ => .ok stored
    Tree.Refreshed 12 t (t.refreshSlots 12) ∧ Partitions (t.refreshSlots 12).entries 12 ∧
      ∃ i, build {} codec (.ofBytes bytes) = .ok i ∧
        Partitions i.tree.entries i.directoryOffset := by
  intro raws entry changes t bytes codec
  have hc : ∀ c ∈ changes, c.NamedBy (NamePool.ofNames raws).1 := by
    have hname : ∀ i < 4, (NamePool.ofNames raws).1.getD i default ∈ (NamePool.ofNames raws).1 := by
      decide
    intro c hc
    simp only [changes, List.mem_cons, List.not_mem_nil, or_false] at hc
    rcases hc with rfl | rfl | rfl | rfl
    · exact hname 0 (by decide)
    · exact hname 1 (by decide)
    · exact hname 2 (by decide)
    · exact hname 3 (by decide)
  have hheaders : t.entries.map Entry.headerOffset = [3, 5, 5, 9] := by decide +kernel
  have hbuild : ((build {} codec (.ofBytes bytes)).toOption.map fun i => i.tree.entries.isEmpty) =
      some false := by decide +kernel
  obtain ⟨i, hi, hsome⟩ := Option.map_eq_some_iff.mp hbuild
  have hi := toOption_eq_some_iff.mp hi
  have hrefreshed := slots_divide.1 raws changes hc 12
  refine ⟨hrefreshed, hrefreshed.partitions (fun hnil => ?_) fun e he => ?_, i, hi,
    (slots_divide.2 _ _ _ i hi).2 (List.isEmpty_eq_false_iff.mp hsome)⟩
  · rw [hnil] at hheaders
    cases hheaders
  · have hmem := List.mem_map_of_mem (f := Entry.headerOffset) he
    rw [hheaders] at hmem
    simp only [List.mem_cons, List.not_mem_nil, or_false] at hmem
    rcases hmem with h | h | h | h <;> rw [h] <;> decide

end Index

end PakIndex
