import PakIndex.Proofs.Index.Answers
import PakIndex.Proofs.Index.Live

/-!
# What a flush leaves as it is

* `Tree.resolved_bind_iff`: files are resolved and read alike in streams that agree below the
  directory.
* **`Index.flush_frame`**: a flush disturbs neither the payloads nor what is read of them.
-/

namespace PakIndex

variable {l : Locator} {s s' : Stream} {t : Tree} {path : String} {v : Entry}

/-! ## Reading in streams that agree -/

theorem Entry.stored_of_agree {d : UInt32} (h : s.Agree l.directoryOffset.toNat s')
    (hd : v.dataOffset = some d) (hend : d.toNat + v.compressedSize ≤ l.directoryOffset.toNat) :
    v.stored s' = v.stored s := by
  rw [stored, stored, hd]
  exact h.read hend

namespace Tree

theorem resolved_eq_ok_iff : t.resolved l s path = .ok v ↔ ∃ e d, t.find? path = some e ∧
    l.locate s e (t.nameOf e) = .ok d ∧ v = { e with dataOffset := some d } := by
  rw [resolved]
  cases t.find? path with
  | none => simp
  | some e => simp [Entry.settled_eq_ok_iff]

theorem resolved_iff_of_agree (h : s.Agree l.directoryOffset.toNat s') :
    t.resolved l s' path = .ok v ↔ t.resolved l s path = .ok v := by
  simp only [resolved_eq_ok_iff, Locator.locate_iff_of_agree h]

/-- **Files are read alike** in streams that agree below the directory, by any reader that looks at
the payload of an entry only. -/
theorem resolved_bind_iff {α : Type} {f f' : Entry → Except Error α} {a : α}
    (h : s.Agree l.directoryOffset.toNat s')
    (hf : ∀ v d, v.dataOffset = some d → d.toNat + v.compressedSize ≤ l.directoryOffset.toNat →
      f' v = f v) :
    (t.resolved l s' path >>= f') = .ok a ↔ (t.resolved l s path >>= f) = .ok a := by
  rw [bind_eq_ok_iff, bind_eq_ok_iff]
  apply exists_congr
  intro v
  rw [resolved_iff_of_agree h]
  apply and_congr_right
  intro hv
  obtain ⟨e, d, -, hd, rfl⟩ := resolved_eq_ok_iff.mp hv
  rw [hf { e with dataOffset := some d } d rfl (Locator.locate_bound hd)]

end Tree

namespace Index

variable {i j : Index} {codec : Codec} {content content' : ByteArray}

/-! ## Reading after a flush -/

theorem Coherent.reads_iff_of_agree (hi : i.Coherent s) (hj : j.Coherent s')
    (htree : j.tree = i.tree) (hlocator : j.locator = i.locator)
    (h : s.Agree i.directoryOffset.toNat s') (path : String) :
    (∀ e, (j.resolve s' path).1 = .ok e ↔ (i.resolve s path).1 = .ok e) ∧
    (∀ bs, (j.readStored s' path).1 = .ok bs ↔ (i.readStored s path).1 = .ok bs) ∧
    ∀ bs, (j.readContent codec s' path).1 = .ok bs ↔ (i.readContent codec s path).1 = .ok bs := by
  have hagree : s.Agree i.locator.directoryOffset.toNat s' := h
  rw [hi.resolve_fst, hj.resolve_fst, hi.readStored_fst, hj.readStored_fst, hi.readContent_fst,
    hj.readContent_fst, htree, hlocator]
  refine ⟨fun e => Tree.resolved_iff_of_agree hagree, fun bs => ?_, fun bs => ?_⟩
  · exact Tree.resolved_bind_iff hagree fun v d hd hend => Entry.stored_of_agree hagree hd hend
  · apply Tree.resolved_bind_iff hagree
    intro v d hd hend
    rw [Entry.stored_of_agree hagree hd hend]

/-- **A flush disturbs neither payloads nor reads.** An archive is opened, and its index is used and
flushed in any order. A flush that succeeds then leaves every byte before the directory as it is,
and with it the place of the directory, the technique of encryption and the tree. Every file is
resolved and read with success after the flush exactly if that was so before it, and with the same
result. -/
theorem flush_frame (h : Live codec i content)
    (hf : i.flush content = (.ok (), j, content')) :
    (∀ k < i.directoryOffset.toNat, content'.data[k]? = content.data[k]?) ∧
    j.directoryOffset = i.directoryOffset ∧ j.headers.encryption = i.headers.encryption ∧
    j.tree = i.tree ∧
    ∀ path,
      let s := Stream.ofByteArray content
      let s' := Stream.ofByteArray content'
      (∀ e, (j.resolve s' path).1 = .ok e ↔ (i.resolve s path).1 = .ok e) ∧
      (∀ bs, (j.readStored s' path).1 = .ok bs ↔ (i.readStored s path).1 = .ok bs) ∧
      ∀ bs, (j.readContent codec s' path).1 = .ok bs ↔ (i.readContent codec s path).1 = .ok bs := by
  obtain ⟨hj, hagree⟩ := h.coherent.flush_agree
  obtain ⟨htree, hoffset, hencryption⟩ := flush_keeps i content
  rw [hf] at hj hagree htree hoffset hencryption
  have hlocator : j.locator = i.locator := by rw [locator, locator, hencryption, hoffset]
  refine ⟨fun k hk => ?_, hoffset, hencryption, htree, fun path => ?_⟩
  · have hbyte := hagree.getElem? hk
    rw [Stream.toList_ofByteArray, Stream.toList_ofByteArray, Array.getElem?_toList,
      Array.getElem?_toList] at hbyte
    exact hbyte
  · exact h.coherent.reads_iff_of_agree hj htree hlocator hagree path

/-- A file is read after its archive has been marked as changed and flushed. -/
theorem flush_frame_marked :
    let content := (Packed.archive [Packed.plain [0x61] [1, 2, 3]] []).toByteArray
    let codec : Codec := fun _ stored _ => .ok stored
    ∃ i j content', Live codec i content ∧ i.flags.dirty = true ∧
      i.flush content = (.ok (), j, content') ∧
      (j.readStored (.ofByteArray content') "a").1 = .ok [1, 2, 3] := by
  intro content codec
  let options : Options := { readOnly := false }
  have hafter : (Place.file content).afterOpening options = .file content := by
    have hsize : (content.size == 0) = false := by decide +kernel
    simp [Place.afterOpening, Place.opening, Place.writeOpening, options, hsize]
  have hrun : ((Place.file content).indexAt options codec "a.pak").toOption.map (fun i =>
      (i.markDirty.2.flags.dirty, (i.markDirty.2.flush content).1.isOk,
        (i.markDirty.2.readStored (.ofByteArray content) "a").1.toOption)) =
      some (true, true, some [1, 2, 3]) := by decide +kernel
  obtain ⟨i, hi, hrun⟩ := Option.map_eq_some_iff.mp hrun
  rw [Prod.mk.injEq, Prod.mk.injEq] at hrun
  obtain ⟨hdirty, hflush, hread⟩ := hrun
  have hopen : (Place.file content).open options codec "a.pak" = (.ok i, .file content) :=
    Prod.ext (toOption_eq_some_iff.mp hi) hafter
  have hlive := (Live.opened hopen).use .markDirty
  obtain ⟨u, hflush⟩ := exists_of_isOk hflush
  have hf : i.markDirty.2.flush content = (.ok (), _, _) := Prod.ext hflush rfl
  obtain ⟨-, -, -, -, hreads⟩ := flush_frame hlive hf
  exact ⟨_, _, _, hlive, hdirty, hf, ((hreads "a").2.1 _).mpr (toOption_eq_some_iff.mp hread)⟩

end Index

end PakIndex
