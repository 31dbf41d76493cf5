import PakIndex.Proofs.Archive.Catalogue
import PakIndex.Proofs.Directory.Truncated

/-!
# Archives whose directory is cut short

* `Stream.Resized`: an archive with another size of the directory in its trailer.
* `Index.build_resized`: opening such an archive fails as reading its directory does, while its
  trailer is located.
* **`Index.build_truncated`**: a directory that is cut short is reported as corrupt unless the cut
  is between two records, and so is the archive that has it.
-/

namespace PakIndex

open Bytes

/-! ## Another size of the directory -/

/-- The trailer with another size of the directory. -/
def Trailer.resized (t : Trailer) (n : UInt32) : Trailer := { t with directorySize := n }

theorem Trailer.encode_resized (t : Trailer) : ∃ front back : Bytes, front.length = 12 ∧
    ∀ n, (t.resized n).encode = front ++ (le32 n ++ back) := by
  refine ⟨signature ++ le16 t.disk ++ le16 t.directoryStartDisk ++ le16 t.entriesOnDisk ++
    le16 t.entriesTotal, le32 t.directoryOffset ++ le16 t.commentLength, ?_, fun n => ?_⟩
  · simp only [List.length_append, length_signature, length_le16]
  · simp only [Trailer.encode, Trailer.resized, List.append_assoc]

/-- Whether a stream is another one with `n` for the size of the directory in its trailer at
`pos`. -/
def Stream.Resized (s : Stream) (pos : Nat) (n : UInt32) (s' : Stream) : Prop :=
  s'.toList = s.toList.take (pos + 12) ++ (le32 n ++ s.toList.drop (pos + 16))

namespace Stream.Resized

variable {s s' : Stream} {l l' : LocatedTrailer} {n : UInt32} {headers : Headers}

theorem bytes (h : s.Resized l.offset n s') (hl : locate s = .ok l) :
    s'.toList.take l.offset = s.toList.take l.offset ∧ s'.toList.drop l.offset =
      (l.record.resized n).encode ++ s.toList.drop (l.offset + 22) := by
  obtain ⟨front, back, hfront, hencode⟩ := l.record.encode_resized
  have hat : l.offset ≤ s.size := by
    obtain ⟨-, hat, -⟩ := locate_eq_ok_iff.mp hl
    exact (Nat.le_add_right _ _).trans hat.1
  have hdrop : s.toList.drop l.offset =
      front ++ (le32 l.record.directorySize ++ (back ++ s.toList.drop (l.offset + 22))) := by
    have hrecord := hencode l.record.directorySize
    rw [drop_of_locate hl, show l.record.encode = _ from hrecord]
    simp only [List.append_assoc]
  have htake : s.toList.take (l.offset + 12) = s.toList.take l.offset ++ front := by
    rw [List.take_add, hdrop, List.take_left' hfront]
  have hrest : s.toList.drop (l.offset + 16) = back ++ s.toList.drop (l.offset + 22) := by
    rw [← List.drop_drop, hdrop, ← List.append_assoc, List.drop_left']
    rw [List.length_append, hfront, length_le32]
  have hlen : (s.toList.take l.offset).length = l.offset := by
    rw [List.length_take, length_toList, min_eq_left hat]
  rw [Resized, htake, hrest, List.append_assoc] at h
  rw [h, List.take_left' hlen, List.drop_left' hlen, hencode]
  simp only [List.append_assoc, and_self]

theorem record_eq (h : s.Resized l.offset n s') (hl : locate s = .ok l) (hl' : locate s' = .ok l')
    (hoffset : l'.offset = l.offset) : l'.record = l.record.resized n := by
  obtain ⟨-, -, -, hparse, -, -⟩ := locate_eq_ok_iff.mp hl'
  have hbytes := (h.bytes hl).2
  have hfixed : Trailer.fixedSize = 22 := rfl
  rw [hoffset, hfixed, Bytes.field, hbytes, List.take_left' (Trailer.length_encode _),
    ← List.append_nil (Trailer.encode _), Trailer.parse_encode] at hparse
  exact (Except.ok.inj hparse).symm

theorem comment_eq (h : s.Resized l.offset n s') (hl : locate s = .ok l) (len : Nat) :
    s'.toList.field (l.offset + 22) len = s.toList.field (l.offset + 22) len := by
  rw [Bytes.field, ← List.drop_drop, (h.bytes hl).2, List.drop_left' (Trailer.length_encode _),
    Bytes.field]

theorem decode (h : s.Resized l.offset n s') (hl : locate s = .ok l) (hl' : locate s' = .ok l')
    (hoffset : l'.offset = l.offset) (hn : n ≤ l.record.directorySize)
    (hd : Headers.decode s l = .ok headers) : Headers.decode s' l' = .ok headers := by
  obtain ⟨-, -, -, -, hsize, -⟩ := locate_eq_ok_iff.mp hl
  obtain ⟨-, -, -, -, hsize', -⟩ := locate_eq_ok_iff.mp hl'
  obtain ⟨hcomment, hvolume, hend⟩ := (Headers.decode_eq_ok_iff hsize).mp hd
  have hfixed : Trailer.fixedSize = 22 := rfl
  refine (Headers.decode_eq_ok_iff hsize').mpr ?_
  rw [h.record_eq hl hl' hoffset, hoffset, hfixed, h.comment_eq hl]
  refine ⟨hcomment, hvolume, le_trans ?_ hend⟩
  exact Nat.add_le_add_left (UInt32.le_iff_toNat_le.mp hn) _

theorem directory_isPrefix (h : s.Resized l.offset n s') (hl : locate s = .ok l)
    (hn : n ≤ l.record.directorySize) (hd : Headers.decode s l = .ok headers) :
    (s'.slice l.record.directoryOffset.toNat n.toNat).toList <+:
      (s.slice l.record.directoryOffset.toNat l.record.directorySize.toNat).toList := by
  obtain ⟨-, -, -, -, hsize, -⟩ := locate_eq_ok_iff.mp hl
  obtain ⟨-, -, hend⟩ := (Headers.decode_eq_ok_iff hsize).mp hd
  have hle := UInt32.le_iff_toNat_le.mp hn
  have hroom : l.record.directoryOffset.toNat + n.toNat ≤ l.offset :=
    (Nat.add_le_add_left hle _).trans hend
  have hfield := Bytes.field_of_take (h.bytes hl).1 hroom
  rw [Bytes.field, Bytes.field] at hfield
  rw [toList_slice, toList_slice, hfield]
  exact List.take_prefix_take_left hle

end Stream.Resized

namespace Index

variable {s s' : Stream} {l l' : LocatedTrailer} {n : UInt32} {headers : Headers}

theorem resized_le (h : s.Resized l.offset n s') (hl : locate s = .ok l)
    (hd : Headers.decode s l = .ok headers) (hn : n ≤ l.record.directorySize)
    (hl' : locate s' = .ok l') (hoffset : l'.offset = l.offset) :
    l.record.directoryOffset.toNat + n.toNat ≤ s'.size := by
  have hroom := directory_le hl' (h.decode hl hl' hoffset hn hd)
  rw [h.record_eq hl hl' hoffset] at hroom
  exact hroom

theorem build_resized {options : Options} {codec : Codec} {e : Error}
    (h : s.Resized l.offset n s') (hl : locate s = .ok l) (hd : Headers.decode s l = .ok headers)
    (hn : n ≤ l.record.directorySize) (hl' : locate s' = .ok l') (hoffset : l'.offset = l.offset)
    (he : Listing.parse (s'.slice l.record.directoryOffset.toNat n.toNat) = .error e) :
    build options codec s' = .error e := by
  have hd' := h.decode hl hl' hoffset hn hd
  have hsurvey : survey s' = .error e := by
    simp only [survey, bind_eq_error_iff]
    refine .inr ⟨l', hl', .inr ⟨headers, hd', .inr ⟨_, ?_, .inl he⟩⟩⟩
    rw [h.record_eq hl hl' hoffset]
    exact Stream.part_of_le (resized_le h hl hd hn hl' hoffset)
  exact bind_eq_error_iff.mpr (.inl hsurvey)

/-- **A directory that is cut short is reported as corrupt.** The first bytes of a directory that is
listed list exactly the records before the cut if the cut is between two records, and otherwise they
are reported as corrupt. So if the trailer of an archive is given a smaller size of the directory at
which no record ends, then the archive is reported as corrupt however thoroughly it is opened,
provided that its trailer is located. -/
theorem build_truncated :
    (∀ buffer listing, Listing.parse buffer = .ok listing → ∃ rs,
      buffer.toList = StoredRecord.encodeAll rs ∧ ∀ cut : Stream, cut.toList <+: buffer.toList →
        (∀ before, before <+: rs → (StoredRecord.encodeAll before).length = cut.size →
          ∃ listing', Listing.parse cut = .ok listing' ∧
            listing'.files.toList =
              listing.files.toList.take (StoredRecord.files before).length ∧
            listing'.names.toList <+: listing.names.toList ∧
            listing'.markers = before.countP StoredRecord.isMarker) ∧
        (¬ StoredRecord.IsBoundary rs cut.size →
          ∃ fault, Listing.parse cut = .error (.directoryCorrupt fault))) ∧
    ∀ options codec s i, build options codec s = .ok i → ∃ l rs, locate s = .ok l ∧
      s.toList.field l.record.directoryOffset.toNat l.record.directorySize.toNat =
        StoredRecord.encodeAll rs ∧
      ∀ n s' l', n < l.record.directorySize → ¬ StoredRecord.IsBoundary rs n.toNat →
        s.Resized l.offset n s' → locate s' = .ok l' → l'.offset = l.offset →
          ∀ options' codec', ∃ fault,
            build options' codec' s' = .error (.directoryCorrupt fault) := by
  constructor
  · intro buffer listing hlisting
    obtain ⟨rs, hrs, rfl⟩ := Listing.parse_eq_ok_iff.mp hlisting
    exact ⟨rs, hrs, fun cut hcut => ⟨fun before hbefore hsize =>
      Listing.parse_boundary hrs hcut hbefore hsize, Listing.parse_cut hrs hcut⟩⟩
  · intro options codec s i hi
    obtain ⟨headers, record, listing, es, hs, -, -⟩ := build_eq_ok_iff.mp hi
    obtain ⟨l, hl, hd, rfl, hlisting⟩ := survey_eq_ok_iff.mp hs
    obtain ⟨rs, hrs, -⟩ := Listing.parse_eq_ok_iff.mp hlisting
    refine ⟨l, rs, hl, (Stream.toList_slice ..).symm.trans hrs, ?_⟩
    intro n s' l' hn hcut h hl' hoffset options' codec'
    have hle : n ≤ l.record.directorySize := UInt32.le_of_lt hn
    rw [← Stream.size_slice (resized_le h hl hd hle hl' hoffset)] at hcut
    obtain ⟨fault, hfault⟩ := Listing.parse_cut hrs (h.directory_isPrefix hl hle hd) hcut
    exact ⟨fault, build_resized h hl hd hle hl' hoffset hfault⟩

/-- The directory of an archive of one file is cut off after its first byte. -/
theorem build_truncated_short :
    let bytes := Catalogue.archive [[0x61]] []
    let cut := Stream.ofBytes (bytes.take 59 ++ (le32 1 ++ bytes.drop 63))
    ∀ options codec, ∃ fault, build options codec cut = .error (.directoryCorrupt fault) := by
  intro bytes cut
  obtain ⟨i, hi⟩ : ∃ i, build {} (fun _ stored _ => .ok stored) (.ofBytes bytes) = .ok i :=
    exists_of_isOk (by decide +kernel)
  obtain ⟨l, rs, hl, -, hrefused⟩ := build_truncated.2 _ _ _ i hi
  have hat : locate (.ofBytes bytes) = .ok ⟨.singleVolume 0 0 47 0, 47, 69⟩ := by decide +kernel
  cases hl.symm.trans hat
  have hcut : locate cut = .ok ⟨.singleVolume 0 0 1 0, 47, 69⟩ := by decide +kernel
  have hboundary : ¬ StoredRecord.IsBoundary rs 1 := by
    rintro ⟨_ | ⟨r, before⟩, -, hlen⟩
    · cases hlen
    · have hle := r.fixedSize_le
      rw [StoredRecord.encodeAll_cons, List.length_append, r.length_encode] at hlen
      omega
  have hresized : (Stream.ofBytes bytes).Resized 47 1 cut := by
    rw [Stream.Resized, Stream.toList_ofBytes, Stream.toList_ofBytes]
  exact hrefused 1 cut _ (by decide) hboundary hresized hcut rfl

end Index

end PakIndex
