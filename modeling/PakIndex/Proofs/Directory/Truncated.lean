import PakIndex.Proofs.Directory.Stored

/-!
# Truncated directories

* `StoredRecord.IsBoundary`: a length at which some of the records end.
* `StoredRecord.prefix_encodeAll`: the first bytes of a directory are some of its records and a part
  of the next one.
* `Listing.recordAt_cut`: a part of a record is reported as corrupt, wherever it ends.
* `Listing.parse_boundary`: cut between two records, a directory lists the records before the cut;
  **`Listing.parse_cut`**: cut anywhere else, it is reported as corrupt.
-/

namespace PakIndex

open Bytes

namespace StoredRecord

variable {rs : List StoredRecord} {cut : Bytes} {n : Nat}

/-- Whether some of the records, one after the other, take `n` bytes. -/
def IsBoundary (rs : List StoredRecord) (n : Nat) : Prop :=
  ∃ before, before <+: rs ∧ (encodeAll before).length = n

theorem encodeAll_mono {before : List StoredRecord} (h : before <+: rs) :
    encodeAll before <+: encodeAll rs := by
  obtain ⟨after, rfl⟩ := h
  rw [encodeAll_append]
  exact List.prefix_append _ _

/-- **The first bytes of a directory** are some of its records and a part of the next one. -/
theorem prefix_encodeAll (h : cut <+: encodeAll rs) : ∃ before rest, before <+: rs ∧
    cut = encodeAll before ++ rest ∧
      (rest = [] ∨ ∃ r : StoredRecord, rest <+: r.encode ∧ rest ≠ r.encode ∧ rest ≠ []) := by
  induction rs generalizing cut with
  | nil => exact ⟨[], [], List.prefix_rfl, List.prefix_nil.mp h, .inl rfl⟩
  | cons r rs ih =>
    rw [encodeAll_cons] at h
    by_cases hlen : cut.length < r.encode.length
    · -- The cut is in the first record, or before it.
      refine ⟨[], cut, List.nil_prefix, rfl, or_iff_not_imp_left.mpr fun hne => ⟨r, ?_, ?_, hne⟩⟩
      · exact List.prefix_of_prefix_length_le h (List.prefix_append _ _) hlen.le
      · rintro rfl
        exact lt_irrefl _ hlen
    · obtain ⟨cut, rfl⟩ :=
        List.prefix_of_prefix_length_le (List.prefix_append _ _) h (Nat.le_of_not_lt hlen)
      obtain ⟨before, rest, hbefore, rfl, hrest⟩ := ih ((List.prefix_append_right_inj _).mp h)
      refine ⟨r :: before, rest, List.cons_prefix_cons.mpr ⟨rfl, hbefore⟩, ?_, hrest⟩
      rw [encodeAll_cons, List.append_assoc]

theorem eq_encodeAll_of_length {before : List StoredRecord} (h : cut <+: encodeAll rs)
    (hbefore : before <+: rs) (hlen : (encodeAll before).length = cut.length) :
    cut = encodeAll before :=
  (List.prefix_of_prefix_length_le h (encodeAll_mono hbefore) hlen.ge).eq_of_length hlen.symm

end StoredRecord

namespace Listing

variable {buffer cut : Stream} {pos : Nat} {l : Listing} {r : StoredRecord}
  {rs before : List StoredRecord} {rest : Bytes}

/-! ## A part of a record -/

/-- **A part of a record is reported as corrupt**, wherever it ends. -/
theorem recordAt_cut (hd : buffer.toList.drop pos = rest) (hrest : rest <+: r.encode)
    (hne : rest ≠ r.encode) : ∃ fault, recordAt buffer pos = .error (.directoryCorrupt fault) := by
  have hfixed : DirectoryRecord.fixedSize = 46 := rfl
  have hsize : buffer.size - pos = rest.length := by
    rw [← Stream.length_toList, ← List.length_drop, hd]
  by_cases hlen : rest.length < 46
  · refine ⟨.truncatedRecord pos, ?_⟩
    rw [recordAt, if_pos (by omega)]
    rfl
  · have hshort : rest.length < r.fixed.totalSize := by
      rw [← r.length_encode]
      exact lt_of_le_of_ne hrest.length_le fun h => hne (hrest.eq_of_length h)
    obtain ⟨tail, rfl⟩ : r.fixed.fixedBytes <+: rest := by
      refine List.prefix_of_prefix_length_le (List.prefix_append _ _) hrest ?_
      rw [DirectoryRecord.length_fixedBytes]
      omega
    refine ⟨_, (recordAt_of_fixedBytes hd).trans (if_pos ?_)⟩
    omega

theorem parseFrom_cut (hd : buffer.toList.drop pos = rest) (hrest : rest <+: r.encode)
    (hne : rest ≠ r.encode) (hnil : rest ≠ []) :
    ∃ fault, parseFrom buffer pos l = .error (.directoryCorrupt fault) := by
  obtain ⟨fault, hfault⟩ := recordAt_cut hd hrest hne
  have hpos : pos < buffer.size := by
    have hlen := List.length_pos_of_ne_nil hnil
    rw [← hd, List.length_drop, Stream.length_toList] at hlen
    omega
  refine ⟨fault, ?_⟩
  rw [parseFrom, dif_pos hpos, hfault]

/-! ## The files before the cut -/

theorem files_pushStored (l : Listing) (r : StoredRecord) :
    l.files.toList <+: (l.pushStored r).files.toList := by
  rw [pushStored]
  split
  · exact List.prefix_rfl
  · exact ⟨_, Array.toList_push.symm⟩

theorem files_ofStored (h : before <+: rs) :
    (ofStored before).files.toList <+: (ofStored rs).files.toList := by
  obtain ⟨after, rfl⟩ := h
  induction after using List.reverseRecOn with
  | nil => rw [List.append_nil]
  | append_singleton after r ih =>
    rw [← List.append_assoc, ofStored_concat]
    exact ih.trans (files_pushStored _ _)

theorem names_ofStored (h : before <+: rs) :
    (ofStored before).names.toList <+: (ofStored rs).names.toList := by
  obtain ⟨after, rfl⟩ := h
  rw [(ofStored_counts before).2.1, (ofStored_counts _).2.1, StoredRecord.fileNames_append]
  exact List.prefix_append _ _

/-! ## Truncated directories -/

/-- **Cut where a record ends**, a directory lists the records before the cut. -/
theorem parse_boundary (hl : buffer.toList = StoredRecord.encodeAll rs)
    (hcut : cut.toList <+: buffer.toList) (hbefore : before <+: rs)
    (hsize : (StoredRecord.encodeAll before).length = cut.size) :
    ∃ l', parse cut = .ok l' ∧
      l'.files.toList = (ofStored rs).files.toList.take (StoredRecord.files before).length ∧
      l'.names.toList <+: (ofStored rs).names.toList ∧
      l'.markers = before.countP StoredRecord.isMarker := by
  rw [hl] at hcut
  rw [← Stream.length_toList] at hsize
  obtain ⟨hfiles, -, hmarkers⟩ := ofStored_counts before
  refine ⟨_, parse_stored (StoredRecord.eq_encodeAll_of_length hcut hbefore hsize), ?_,
    names_ofStored hbefore, hmarkers⟩
  rw [← hfiles]
  exact List.prefix_iff_eq_take.mp (files_ofStored hbefore)

/-- **Cut anywhere else**, a directory is reported as corrupt. -/
theorem parse_cut (hl : buffer.toList = StoredRecord.encodeAll rs)
    (hcut : cut.toList <+: buffer.toList) (hsize : ¬ StoredRecord.IsBoundary rs cut.size) :
    ∃ fault, parse cut = .error (.directoryCorrupt fault) := by
  rw [hl] at hcut
  obtain ⟨before, rest, hbefore, hbytes, hrest⟩ := StoredRecord.prefix_encodeAll hcut
  obtain rfl | ⟨r, hrest, hne, hnil⟩ := hrest
  · refine absurd ⟨before, hbefore, ?_⟩ hsize
    rw [← Stream.length_toList, hbytes, List.append_nil]
  · obtain ⟨stop, hstop, hwalk⟩ := parse_stored_append hbytes
    obtain ⟨fault, hfault⟩ := parseFrom_cut hstop hrest hne hnil
    exact ⟨fault, hwalk.trans hfault⟩

end Listing

end PakIndex
