import PakIndex.Proofs.Directory.Rows
import PakIndex.Proofs.Index.Build

/-!
# Archives that have been laid out

* `Trailer.OneVolume`: the trailers that writers produce.
* `Trailer.OneVolume.field_ne_signature`: no signature starts among the first bytes of such a
  trailer.
* **`Index.survey_written`**: rows, a trailer and a comment that are written one after the other are
  read back.
-/

namespace PakIndex

open Bytes

/-! ## Written trailers -/

/-- Whether a trailer is one that writers produce: it is of an archive in one volume. -/
structure Trailer.OneVolume (t : Trailer) : Prop where
  disk : diskNumber t.disk = 0
  directoryStartDisk : t.directoryStartDisk = 0
  entries : t.entriesOnDisk = t.entriesTotal

/-- The start disk is zero and the number of entries is written twice, so that no signature starts
among the first bytes of a trailer of one volume. -/
theorem Trailer.OneVolume.field_ne_signature {t : Trailer} (h : t.OneVolume) (comment : Bytes)
    {k : Nat} (hk : 1 ≤ k) (hk' : k ≤ 9) : (t.encode ++ comment).field k 4 ≠ Trailer.signature := by
  obtain ⟨d₀, d₁, c₀, c₁, rest, hbytes⟩ : ∃ d₀ d₁ c₀ c₁ rest, t.encode ++ comment =
      [0x50, 0x4B, 0x05, 0x06, d₀, d₁, 0, 0, c₀, c₁, c₀, c₁] ++ rest := by
    refine ⟨.ofNat t.disk.toNat, .ofNat (t.disk.toNat / 256), .ofNat t.entriesTotal.toNat,
      .ofNat (t.entriesTotal.toNat / 256),
      le32 t.directorySize ++ le32 t.directoryOffset ++ le16 t.commentLength ++ comment, ?_⟩
    rw [Trailer.encode, h.directoryStartDisk, h.entries]
    simp only [List.append_assoc]
    rfl
  intro heq
  have hfield : ∀ i < 4, ([0x50, 0x4B, 0x05, 0x06, d₀, d₁, 0, 0, c₀, c₁, c₀, c₁] ++ rest)[k + i]? =
      Trailer.signature[i]? := by
    intro i hi
    rw [← heq, hbytes, getElem?_field hi]
  have h₀ := hfield 0 (by decide)
  have h₂ := hfield 2 (by decide)
  interval_cases k <;> simp [Trailer.signature] at h₀ h₂
  all_goals
    rw [h₀] at h₂
    exact absurd h₂ (by decide)

/-! ## Written archives -/

namespace Index

variable {s : Stream} {pre comment : Bytes} {rows : List Listing.Row} {t : Trailer} {h : Headers}

/-- Whether a stream is laid out as rows, a trailer and a comment behind some bytes. -/
structure Written (s : Stream) (pre : Bytes) (rows : List Listing.Row) (t : Trailer)
    (comment : Bytes) : Prop where
  bytes : s.toList = pre ++ (rows.flatMap Listing.Row.encode ++ (t.encode ++ comment))
  small : s.size ≤ maxArchiveSize
  writable : ∀ row ∈ rows, row.Writable
  oneVolume : t.OneVolume
  directoryOffset : t.directoryOffset.toNat = pre.length
  directorySize : t.directorySize.toNat = (rows.flatMap Listing.Row.encode).length
  commentLength : t.commentLength.toNat = comment.length
  /-- The comment does not look like another trailer. -/
  unique : ∀ k, 8 < k → k ≤ comment.length → (t.encode ++ comment).field k 4 ≠ Trailer.signature

theorem Written.drop_eq (w : Written s pre rows t comment) :
    s.toList.drop (pre.length + (rows.flatMap Listing.Row.encode).length) =
      t.encode ++ comment := by
  rw [w.bytes, ← List.append_assoc]
  exact List.drop_left' List.length_append

/-- **A written trailer is located.** -/
theorem Written.locate (w : Written s pre rows t comment) : PakIndex.locate s = .ok
    ⟨t, pre.length + (rows.flatMap Listing.Row.encode).length, s.size⟩ := by
  refine (locate_written_iff w.small w.drop_eq w.commentLength).mpr fun k hk hk' => ?_
  by_cases hsmall : k ≤ 8
  · exact w.oneVolume.field_ne_signature comment hk (by omega)
  · exact w.unique k (by omega) hk'

/-- **Rows, a trailer and a comment that are written one after the other are read back.** -/
theorem survey_written (w : Written s pre rows t comment)
    (hh : Headers.ofComment (.ofDisk t.disk) comment = .ok h) :
    survey s = .ok (h, t, Listing.ofRows rows) := by
  have hslice : (s.slice t.directoryOffset.toNat t.directorySize.toNat).toList =
      rows.flatMap Listing.Row.encode := by
    rw [Stream.toList_slice, w.directoryOffset, w.directorySize, w.bytes, List.drop_left' rfl]
    exact List.take_left' rfl
  have hend : t.directoryEnd ≤ pre.length + (rows.flatMap Listing.Row.encode).length := by
    rw [Trailer.directoryEnd, w.directoryOffset, w.directorySize]
  refine survey_eq_ok_iff.mpr ⟨_, w.locate, ?_, rfl, Listing.parseFrom_rows w.writable hslice⟩
  exact (Headers.decode_behind_iff w.drop_eq w.commentLength).mpr
    ⟨hh, ⟨w.oneVolume.disk, w.oneVolume.directoryStartDisk, w.oneVolume.entries⟩, hend⟩

theorem survey_written_short (w : Written s pre rows t comment) (hcomment : comment.length < 8)
    (hdisk : t.disk = 0) : survey s = .ok ({ comment }, t, Listing.ofRows rows) := by
  refine survey_written w ?_
  rw [Headers.ofComment_of_short hcomment, hdisk, show Encryption.ofDisk 0 = .none by decide]

end Index

end PakIndex
