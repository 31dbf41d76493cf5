import PakIndex.Proofs.Index.Layout
import PakIndex.Proofs.Trailer.Stray

/-!
# What lets an archive be rewritten

* `Headers.Readable.length_comment`: the lengths of comments without a directory signature.
* `Headers.absentFrom_dropSignature`: to drop the signature brings no trailer into the comment.
* `Index.Rewritable`: what a flush relies on, whatever the file holds by then;
  **`Index.Obtained.rewritable`**: it holds of every index that can come about.
* **`Index.Rewritable.flush_written`**: what a flush that writes leaves at the end of the file.
-/

namespace PakIndex

open Bytes

/-! ## Comments without a directory signature -/

namespace Headers

variable {h : Headers}

/-- **The lengths of comments without a directory signature**: there is room for an extended header
at most, or the key table follows it. -/
theorem Readable.length_comment (hr : h.Readable) (hs : h.signing = .none) :
    h.comment.length ≤ 8 ∧ h.encryption ≠ .streamCipherKeyTable ∨
      h.comment.length = 284 ∧ h.encryption = .streamCipherKeyTable := by
  rcases hr.cases with ⟨legacy, comment, hl, hlen, rfl⟩ | ⟨-, x, -, hext⟩
  · exact .inl ⟨hlen.le, hl⟩
  obtain ⟨henc, -, hlen, -⟩ := ofExtended_eq_ok_iff.mp hext
  rcases Encryption.ofExtended_cases henc with ⟨-, he⟩ | ⟨-, he⟩ <;> rw [he, hs] at hlen
  · exact .inl ⟨hlen.le, by rw [he]; decide⟩
  · exact .inr ⟨hlen, he⟩

/-- The bytes of the first header behind the directory signature take the place of its own, and none
of them starts a signature. -/
theorem absentFrom_dropSignature (hr : h.Readable) (ha : Trailer.AbsentFrom h.comment) :
    Trailer.AbsentFrom h.dropSignature.comment := by
  cases hsigning : h.signing with
  | none =>
    rw [dropSignature_of_unsigned hsigning]
    exact ha
  | directorySigned =>
    rcases hr.cases with ⟨legacy, comment, -, -, rfl⟩ | ⟨-, x, -, hext⟩
    · cases hsigning
    obtain ⟨henc, -, hlen, -, -, hx, -⟩ := ofExtended_eq_ok_iff.mp hext
    rw [dropSignature_of_signed hsigning hx]
    intro k hk heq
    have hfixed : Trailer.fixedSize = 22 := rfl
    have hheader := ExtendedHeader.length_encode { x with signing := 0 }
    simp only [List.length_append, List.length_drop, hheader] at hk heq
    rcases Encryption.ofExtended_cases henc with ⟨-, he⟩ | ⟨hx₃, he⟩ <;>
      rw [he, hsigning] at hlen
    · change _ = 8 + 260 + 0 at hlen
      omega
    change _ = 8 + 260 + 276 at hlen
    by_cases hfirst : k < 8
    · have hnone : ∀ i < 8, (ExtendedHeader.mk 3 0).encode[i]? ≠ some 0x50 := by decide
      have hbyte : (Bytes.field (ExtendedHeader.encode { x with signing := 0 } ++
          h.comment.drop 268) k 4)[0]? = _ := getElem?_field (by decide)
      rw [heq, hx₃, Nat.add_zero,
        List.getElem?_append_left (by rw [hx₃] at hheader; omega)] at hbyte
      exact hnone k hfirst hbyte.symm
    · rw [field_skip (by omega), hheader, Bytes.field, List.drop_drop] at heq
      exact ha (268 + (k - 8)) (by omega) heq

end Headers

namespace Index

variable {i j : Index} {s : Stream} {options : Options} {codec : Codec}
  {content content' : ByteArray}

/-! ## What a flush relies on -/

/-- Whether an index can be rewritten wherever its file is: its headers are those that its comment
holds, no other trailer could have been taken for the one that it was built from, and the directory
that describes it has room where the old one is. -/
structure Rewritable (i : Index) : Prop where
  readable : i.headers.Readable
  commentShort : i.headers.comment.length < 2 ^ 16
  absent : Trailer.AbsentFrom i.headers.comment
  offset : 16 ≤ i.headers.comment.length → i.directoryOffset ≠ 0x06054B50
  records : i.recordsSize ≤ i.directorySize.toNat
  small : i.directoryOffset.toNat + i.directorySize.toNat + 22 + i.headers.comment.length ≤
    maxArchiveSize

/-- **An index that is built can be rewritten**: the search has met no signature behind the one of
its trailer. -/
theorem build_rewritable (h : build options codec s = .ok i) : i.Rewritable := by
  have hcoherent := build_coherent h
  obtain ⟨headers, record, listing, es, hs, -, rfl⟩ := build_eq_ok_iff.mp h
  obtain ⟨⟨record, offset, fileSize⟩, hl, hd, rfl, -⟩ := survey_eq_ok_iff.mp hs
  obtain ⟨hsmall, -, -, -, hend, rfl⟩ := locate_eq_ok_iff.mp hl
  obtain ⟨hh, -⟩ := (Headers.decode_eq_ok_iff hend).mp hd
  have hcomment : headers.comment = s.toList.field (offset + 22) record.commentLength.toNat :=
    Headers.comment_of_ofComment hh
  have hlen : record.commentLength.toNat = headers.comment.length := by
    rw [hcomment]
    exact (Stream.length_field hend.le).symm
  have hdrop : s.toList.drop offset = record.encode ++ headers.comment := by
    rw [hcomment]
    exact (drop_of_locate hl).trans (congrArg _ (field_of_locate hl).symm)
  have hlast := (locate_written_iff hsmall hdrop hlen).mp hl
  refine ⟨hcoherent.readable, hcoherent.commentShort, fun k hk heq => ?_, fun hlong heq => ?_,
    hcoherent.records, hcoherent.small⟩
  · refine hlast (k + 22) (by omega) hk ?_
    rw [Trailer.field_comment record headers.comment (by omega), Nat.add_sub_cancel, heq]
  · exact hlast 16 (by decide) hlong ((Trailer.field_directoryOffset _ _).mpr heq)

theorem create_rewritable (options : Options) : (create options).Rewritable := by
  have h := create_coherent options
  have hlong : ¬ 16 ≤ (create options).headers.comment.length := show ¬ 16 ≤ 0 by decide
  exact ⟨h.readable, h.commentShort, Trailer.absentFrom_of_short (show 0 < 22 by decide),
    fun h => absurd h hlong, h.records, h.small⟩

theorem recordsSize_congr (h : j.tree.unlocated = i.tree.unlocated) :
    j.recordsSize = i.recordsSize := by
  have hsize : ∀ i : Index, i.recordsSize = (i.tree.unlocated.toList.map fun x =>
      46 + (i.tree.unlocated.nameOf x.2).length).sum := by
    intro i
    rw [Tree.unlocated, Tree.toList_map, List.map_map]
    rfl
  rw [hsize, hsize, h]

namespace Rewritable

theorem use (h : i.Rewritable) (htree : i.tree.WellFormed) (codec : Codec) (s : Stream) (u : Use) :
    (Index.use codec s i u).Rewritable := by
  obtain ⟨hheaders, hoffset, hsize⟩ := use_sameArchive codec s i u
  have hrecords := recordsSize_congr (use_reaches (s := s) htree codec u).unlocated
  obtain ⟨hreadable, hshort, habsent, hstart, hroom, hsmall⟩ := h
  rw [← hheaders] at hreadable hshort habsent hstart hsmall
  rw [← hoffset] at hstart hsmall
  rw [← hsize] at hroom hsmall
  rw [← hrecords] at hroom
  exact ⟨hreadable, hshort, habsent, hstart, hroom, hsmall⟩

theorem unsigned (h : i.Rewritable) : i.unsigned.Rewritable := by
  obtain ⟨hcomment, hlegacy⟩ := Headers.ofComment_dropSignature h.readable
  have hlen := Headers.length_comment_dropSignature h.readable
  exact ⟨⟨_, hlegacy, hcomment⟩, hlen.trans_lt h.commentShort,
    Headers.absentFrom_dropSignature h.readable h.absent, fun hlong => h.offset (hlong.trans hlen),
    h.records, le_trans (Nat.add_le_add_left hlen _) h.small⟩

theorem rewritten (h : i.Rewritable) : Rewritable
    { i with directorySize := .ofNat i.directory.length, flags.dirty := false } := by
  have hsize : (UInt32.ofNat i.directory.length).toNat = i.recordsSize := by
    rw [toNat_length_directory h.records, length_directory]
  have hroom := h.records
  have hsmall := h.small
  refine ⟨h.readable, h.commentShort, h.absent, h.offset, hsize.ge, ?_⟩
  show i.directoryOffset.toNat + (UInt32.ofNat _).toNat + 22 + i.headers.comment.length ≤ _
  rw [hsize]
  omega

theorem exists_flush (h : i.Rewritable) (hro : i.flags.readOnly = false)
    (hdirty : i.flags.dirty = true) (hcount : i.tree.entries.length ≤ 0xFFFF)
    (content : ByteArray) : ∃ j content', i.flush content = (.ok (), j, content') := by
  rcases flush_cases i content with
    ⟨hf, -⟩ | ⟨-, ⟨hf, -⟩ | ⟨-, ⟨hf, -⟩ | ⟨-, hf, -⟩ | ⟨-, hf⟩⟩⟩
  · cases hf.symm.trans hro
  · cases hf.symm.trans hdirty
  · omega
  · have := h.unsigned.commentShort
    omega
  · exact ⟨_, _, hf⟩

theorem flush (h : i.Rewritable) (content : ByteArray) : (i.flush content).2.1.Rewritable := by
  rcases flush_cases i content with
    ⟨-, hf⟩ | ⟨-, ⟨-, hf⟩ | ⟨-, ⟨-, hf⟩ | ⟨-, -, hf⟩ | ⟨-, hf⟩⟩⟩ <;> rw [hf]
  exacts [h, h, h.unsigned, h.unsigned, h.unsigned.rewritten]

end Rewritable

/-- **Every index that comes about can be rewritten.** -/
theorem Obtained.rewritable (h : Obtained i) : i.Rewritable := by
  induction h with
  | build h => exact build_rewritable h
  | create options => exact create_rewritable options
  | memorize path _ ih =>
    exact ⟨ih.readable, ih.commentShort, ih.absent, ih.offset, ih.records, ih.small⟩
  | use codec s u hi ih => exact ih.use hi.laidOut.tree codec s u
  | flush content _ ih => exact ih.flush content

/-! ## What is written -/

/-- **What a flush that writes leaves at the end of the file**, whatever the file held: the trailer
of the index that is left, in its place behind the directory, and the comment. -/
theorem Rewritable.flush_written (h : i.Rewritable) (hdirty : i.flags.dirty = true)
    (hf : i.flush content = (.ok (), j, content')) :
    j.headers = i.unsigned.headers ∧ j.trailer = i.unsigned.trailer ∧
      content'.data.toList.drop (j.directoryOffset.toNat + j.directorySize.toNat) =
        j.trailer.encode ++ j.headers.comment ∧
      content'.size ≤ maxArchiveSize := by
  obtain ⟨-, -, rfl, rfl⟩ := flush_ok hdirty hf
  have hsize : (UInt32.ofNat i.unsigned.directory.length).toNat = i.unsigned.directory.length :=
    toNat_length_directory h.unsigned.records
  have hroom : i.unsigned.directory.length ≤ i.directorySize.toNat := by
    rw [length_directory]
    exact h.unsigned.records
  have hsmall : i.directoryOffset.toNat + i.directorySize.toNat + 22 +
    i.unsigned.headers.comment.length ≤ maxArchiveSize := h.unsigned.small
  have hbytes := toList_replaceFrom content i.directoryOffset.toNat
    (i.unsigned.directory ++ i.unsigned.trailer.encode ++ i.unsigned.headers.comment)
  have hbefore : (content.data.toList.take i.directoryOffset.toNat ++
      List.replicate (i.directoryOffset.toNat - content.size) 0).length =
        i.directoryOffset.toNat := by
    simp only [List.length_append, List.length_take, List.length_replicate, Array.length_toList,
      ByteArray.size_data]
    omega
  refine ⟨rfl, rfl, ?_, ?_⟩
  · show List.drop (i.directoryOffset.toNat + (UInt32.ofNat _).toNat) _ = _
    rw [hbytes, hsize, List.append_assoc i.unsigned.directory, ← List.append_assoc]
    refine List.drop_left' ?_
    rw [List.length_append, hbefore]
  · rw [← ByteArray.size_data, ← Array.length_toList, hbytes, List.length_append, hbefore,
      List.length_append, List.length_append, Trailer.length_encode]
    omega

end Index

end PakIndex
