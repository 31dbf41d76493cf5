import PakIndex.Proofs.Index.Refused

/-!
# Finding a rewritten archive

* **`Index.flush_located`**: the trailer that a flush has written is the one that is located, unless
  its numbers spell a signature in front of an encryption header.
* `Index.flush_located_hidden`: an archive that a flush makes unreadable in this way.
-/

namespace PakIndex

/-! ## Archives with an encryption header -/

/-- A comment that declares a key table and holds one. -/
def keyTableComment : Bytes :=
  (ExtendedHeader.mk 3 0).encode ++
    (EncryptionHeader.mk (List.replicate 16 0) (List.replicate 16 (List.replicate 16 0))).encode

theorem length_keyTableComment : keyTableComment.length = 284 := by
  rw [keyTableComment, List.length_append, ExtendedHeader.length_encode,
    EncryptionHeader.length_encode, List.length_flatten]
  rfl

theorem ofComment_keyTableComment : ∃ h, Headers.ofComment .none keyTableComment = .ok h ∧
    h.signing = .none ∧ h.extended.isNone = false ∧ h.encryption = .streamCipherKeyTable := by
  have hrun : (Headers.ofComment .none keyTableComment).toOption.map (fun h =>
      (h.signing, h.extended.isNone, h.encryption)) =
        some (.none, false, .streamCipherKeyTable) := by decide +kernel
  obtain ⟨h, hh, hrun⟩ := Option.map_eq_some_iff.mp hrun
  obtain ⟨hsigning, hrun⟩ := Prod.mk.inj hrun
  exact ⟨h, toOption_eq_some_iff.mp hh, hsigning, Prod.mk.inj hrun⟩

theorem Index.Rewritable.flush_unsigned {i : Index} (h : i.Rewritable)
    (hro : i.flags.readOnly = false) (hdirty : i.flags.dirty = true)
    (hcount : i.tree.entries.length ≤ 0xFFFF) (hsigning : i.headers.signing = .none)
    (content : ByteArray) : ∃ j content', i.flush content = (.ok (), j, content') ∧
      j.headers = i.headers ∧ j.trailer = i.trailer := by
  have hkept : i.unsigned = i := (unsigned_eq_iff h.readable).mpr hsigning
  obtain ⟨j, content', hf⟩ := h.exists_flush hro hdirty hcount content
  obtain ⟨hheaders, htrailer, -⟩ := h.flush_written hdirty hf
  exact ⟨j, content', hf, hheaders.trans (congrArg Index.headers hkept),
    htrailer.trans (congrArg Index.trailer hkept)⟩

theorem Index.trailer_of_extended {i : Index} (h : i.headers.extended.isNone = false) :
    i.trailer = .singleVolume (.ofNat i.tree.entries.length) i.directoryOffset
      (.ofNat i.recordsSize) (.ofNat i.headers.comment.length) := by
  rw [trailer, closing, h, length_directory]
  rfl

theorem Catalogue.flush_listed {names : List Bytes} {comment : Bytes} {h : Headers}
    (hv : Valid names comment h) (hcount : names.length ≤ 0xFFFF) (hsigning : h.signing = .none)
    (hextended : h.extended.isNone = false) (codec : Codec) :
    ∃ i, Index.build { readOnly := false } codec (.ofBytes (archive names comment)) = .ok i ∧
      i.markDirty.2.flags.dirty = true ∧ ∀ content, ∃ j content',
        i.markDirty.2.flush content = (.ok (), j, content') ∧ j.headers = h ∧
          j.trailer = .singleVolume (.ofNat names.length) 0 (.ofNat (directory names).length)
            (.ofNat comment.length) := by
  have hinit : ({ readOnly := false } : Options).init ≠ .validate := by decide
  obtain ⟨i, hi, rfl, hoffset, hro, hentries, hsize⟩ := build_listed hv hinit codec
  have hr : Index.Rewritable i.markDirty.2 :=
    ((Index.Obtained.build hi).use codec (.ofBytes []) .markDirty).rewritable
  rw [Index.markDirty_of_writable hro] at hr
  refine ⟨i, hi, ?_⟩
  rw [Index.markDirty_of_writable hro]
  refine ⟨rfl, fun content => ?_⟩
  obtain ⟨j, content', hf, hheaders, htrailer⟩ :=
    hr.flush_unsigned hro rfl (hentries.trans_le hcount) hsigning content
  refine ⟨j, content', hf, hheaders, ?_⟩
  have hcomment := Headers.comment_of_ofComment hv.headers
  rw [htrailer]
  show i.trailer = _
  rw [Index.trailer_of_extended hextended, hentries, hoffset, hsize, hcomment]

/-! ## When the trailer is found -/

namespace Index

variable {i j : Index} {content content' : ByteArray}

/-- **When a rewritten archive is found again.** A flush that writes leaves its trailer behind the
directory, and the comment behind the trailer. The search stops at this trailer in all archives but
those with an encryption header in the comment, and in these as long as no signature starts in the
number of entries or in the size of the directory. -/
theorem flush_located (h : Obtained i) (hdirty : i.flags.dirty = true)
    (hf : i.flush content = (.ok (), j, content')) :
    let pos := j.directoryOffset.toNat + j.directorySize.toNat
    content'.data.toList.drop pos = j.trailer.encode ++ j.headers.comment ∧
      (PakIndex.locate (.ofByteArray content') = .ok ⟨j.trailer, pos, content'.size⟩ ↔
        ¬ (j.headers.encryption = .streamCipherKeyTable ∧ j.trailer.Spells)) := by
  intro pos
  have hr := h.rewritable
  obtain ⟨hheaders, htrailer, hdrop, hsmall⟩ := hr.flush_written hdirty hf
  refine ⟨hdrop, ?_⟩
  obtain ⟨hsigning, -⟩ := Headers.signature_dropSignature hr.readable
  obtain ⟨hdisk, hlegacy⟩ := Headers.ofComment_dropSignature hr.readable
  have hshape := hr.unsigned.readable.length_comment hsigning
  have hlen : i.unsigned.trailer.commentLength.toNat = i.unsigned.headers.comment.length :=
    UInt16.toNat_ofNat_of_lt' hr.unsigned.commentShort
  have hhidden := (trailer_spec hlegacy).1.hidden_iff hlen (hshape.imp And.left And.left)
    hr.unsigned.absent hr.unsigned.offset
  rw [← Stream.toList_ofByteArray] at hdrop
  rw [← Stream.size_ofByteArray] at hsmall ⊢
  rw [hheaders, htrailer] at hdrop ⊢
  rw [locate_written_iff hsmall hdrop hlen, ← not_iff_not, not_not]
  push Not
  rw [hhidden]
  apply and_congr_left
  intro _
  rcases hshape with ⟨hshort, hne⟩ | ⟨hlong, heq⟩
  · exact iff_of_false (by omega) hne
  · exact iff_of_true hlong heq

/-- A catalogue with an encryption header is found again. -/
theorem flush_located_encrypted :
    let bytes := Catalogue.archive (Catalogue.numberedNames 3) keyTableComment
    ∃ i j content', Obtained i ∧ i.flags.dirty = true ∧
      i.flush bytes.toByteArray = (.ok (), j, content') ∧
      j.headers.encryption = .streamCipherKeyTable ∧
      PakIndex.locate (.ofByteArray content') = .ok
        ⟨j.trailer, j.directoryOffset.toNat + j.directorySize.toNat, content'.size⟩ := by
  intro bytes
  let codec : Codec := fun _ stored _ => .ok stored
  obtain ⟨h, hh, hsigning, hextended, hencryption⟩ := ofComment_keyTableComment
  have hlength := Catalogue.length_numberedNames 3
  have hv : Catalogue.Valid (Catalogue.numberedNames 3) keyTableComment h := by
    refine Catalogue.valid_numberedNames (by decide) hh (by rw [length_keyTableComment]; decide) ?_
    rw [length_keyTableComment]
    decide +kernel
  obtain ⟨i, hi, hdirty, hf⟩ :=
    Catalogue.flush_listed hv (by rw [hlength]; decide) hsigning hextended codec
  obtain ⟨j, content', hf, hheaders, htrailer⟩ := hf bytes.toByteArray
  have hmarked : Obtained i.markDirty.2 := (Obtained.build hi).use codec (.ofBytes bytes) .markDirty
  obtain ⟨-, hlocate⟩ := flush_located hmarked hdirty hf
  have hspells : ¬ j.trailer.Spells := by
    rw [htrailer, hlength, Catalogue.length_directory_numberedNames, length_keyTableComment]
    decide
  refine ⟨_, _, _, hmarked, hdirty, hf, by rw [hheaders, hencryption], ?_⟩
  exact hlocate.mpr fun hhidden => hspells hhidden.2

end Index

/-! ## Numbers that spell a signature -/

namespace Catalogue

/-- As many names as the first half of a signature says, one of them so long that the size of the
directory goes on with the second half. -/
def spelling : List Bytes := List.replicate 20585 0x78 :: numberedNames 19279

theorem length_spelling : spelling.length = 19280 := by
  rw [spelling, List.length_cons, length_numberedNames]

theorem length_directory_spelling : (directory spelling).length = 984581 := by
  have hrest := length_directory_numberedNames 19279
  rw [length_directory] at hrest ⊢
  rw [spelling, List.map_cons, List.sum_cons, hrest, List.length_replicate]

theorem plain_replicate {count : Nat} (hcount : 0 < count) (hshort : count < 2 ^ 16) :
    Plain (List.replicate count 0x78) := by
  refine ⟨by simp; omega, by rw [List.length_replicate]; exact hshort, ?_, ?_⟩
  · intro b hb
    rw [List.eq_of_mem_replicate hb]
    decide
  · rw [normalizeName, List.map_replicate]
    rfl

theorem valid_spelling {h : Headers} (hh : Headers.ofComment .none keyTableComment = .ok h) :
    Valid spelling keyTableComment h := by
  have hlen := length_keyTableComment
  refine ⟨?_, ?_, hh, by rw [hlen]; decide, ?_, ?_⟩
  · intro name hname
    rcases List.mem_cons.mp hname with rfl | hname
    · exact plain_replicate (by decide) (by decide)
    · exact plain_of_mem_numberedNames hname
  · refine List.nodup_cons.mpr ⟨fun hmem => ?_, nodup_numberedNames (by decide)⟩
    obtain ⟨n, -, hn⟩ := List.mem_map.mp hmem
    have hlength := congrArg List.length hn
    rw [List.length_replicate] at hlength
    exact absurd hlength (by simp [numbered])
  · have htrailer : trailer spelling keyTableComment = .singleVolume 0 0 984581 284 := by
      rw [trailer, length_directory_spelling, hlen]
      rfl
    have hunique : ∀ k < 285, 8 < k →
        Bytes.field ((Trailer.singleVolume 0 0 984581 284).encode ++ keyTableComment) k 4 ≠
          Trailer.signature := by decide +kernel
    intro k hk hk'
    rw [htrailer]
    exact hunique k (by omega) hk
  · have hmax : maxArchiveSize = 2 ^ 31 := rfl
    rw [length_archive, length_directory_spelling, hlen]
    omega

end Catalogue

/-- The trailer that is written for these names is hidden behind the signature that it spells: what
stands there as the length of a comment is the size of the encryption header. -/
theorem locate_spelling {s : Stream} {pos : Nat} (hsmall : s.size ≤ maxArchiveSize)
    (hdrop : s.toList.drop pos = Trailer.encode ⟨0, 0, 19280, 19280, 984581, 0, 284⟩ ++
      keyTableComment) : locate s = .error (.commentLengthMismatch 276 274) := by
  generalize hbytes : Trailer.encode ⟨0, 0, 19280, 19280, 984581, 0, 284⟩ ++ keyTableComment =
    bytes at hdrop
  have hlen : bytes.length = 306 := by
    rw [← hbytes, List.length_append, Trailer.length_encode, length_keyTableComment]
  have hsize : s.size = pos + 306 := by
    have hl := congrArg List.length hdrop
    rw [List.length_drop, Stream.length_toList, hlen] at hl
    omega
  have hfield : ∀ k n, s.toList.field (pos + k) n = bytes.field k n := fun k n => by
    rw [Bytes.field, ← List.drop_drop, hdrop, Bytes.field]
  have hfixed : Trailer.fixedSize = 22 := rfl
  have hmax : maxCommentLength = 65535 := rfl
  have hat : TrailerAt s (pos + 10) := by
    refine ⟨by omega, ?_⟩
    rw [hfield, ← hbytes]
    decide +kernel
  have hlast : ∀ q, pos + 10 < q → ¬ TrailerAt s q := by
    have hlater : ∀ k < 285, 10 < k → bytes.field k 4 ≠ Trailer.signature := by
      rw [← hbytes]
      decide +kernel
    rintro q hq ⟨hroom, hsig⟩
    obtain ⟨k, rfl⟩ := Nat.exists_eq_add_of_lt hq
    rw [show pos + 10 + k + 1 = pos + (k + 11) by omega, hfield] at hsig
    exact hlater (k + 11) (by omega) (by omega) hsig
  have hparse : Trailer.parse (s.toList.field (pos + 10) Trailer.fixedSize) =
      .ok ⟨15, 0, 0, 284, 8, 3, 276⟩ := by
    rw [hfield, ← hbytes]
    decide +kernel
  have hexpected : s.size - (pos + 10) - Trailer.fixedSize = 274 := by omega
  have hwrong : ¬ pos + 10 + Trailer.fixedSize + (276 : UInt16).toNat = s.size := by
    change ¬ pos + 10 + Trailer.fixedSize + 276 = s.size
    omega
  rw [locate_of_last hsmall hat hlast (by omega) hparse, if_neg hwrong, hexpected]

namespace Index

theorem build_of_locate_error {s : Stream} {err : Error} (h : PakIndex.locate s = .error err)
    (options : Options) (codec : Codec) : build options codec s = .error err := by
  rw [build, survey, h]
  rfl

/-- **A flush may hide its own trailer**: an archive with an encryption header is rewritten, and
there is no index of it any more. -/
theorem flush_located_hidden :
    let bytes := Catalogue.archive Catalogue.spelling keyTableComment
    let codec : Codec := fun _ stored _ => .ok stored
    ∃ i, build { readOnly := false } codec (.ofBytes bytes) = .ok i ∧
      let flushed := i.markDirty.2.flush bytes.toByteArray
      flushed.1 = .ok () ∧
        PakIndex.locate (.ofByteArray flushed.2.2) = .error (.commentLengthMismatch 276 274) ∧
        ∀ options, build options codec (.ofByteArray flushed.2.2) =
          .error (.commentLengthMismatch 276 274) := by
  intro bytes codec
  obtain ⟨h, hh, hsigning, hextended, -⟩ := ofComment_keyTableComment
  have hv := Catalogue.valid_spelling hh
  have hcount := Catalogue.length_spelling
  obtain ⟨i, hi, hdirty, hf⟩ :=
    Catalogue.flush_listed hv (by rw [hcount]; decide) hsigning hextended codec
  obtain ⟨j, content', hf, hheaders, htrailer⟩ := hf bytes.toByteArray
  have hmarked : Obtained i.markDirty.2 := (Obtained.build hi).use codec (.ofBytes bytes) .markDirty
  obtain ⟨-, -, hdrop, hsmall⟩ := hmarked.rewritable.flush_written hdirty hf
  rw [htrailer, hcount, Catalogue.length_directory_spelling, length_keyTableComment, hheaders,
    Headers.comment_of_ofComment hh, ← Stream.toList_ofByteArray] at hdrop
  rw [← Stream.size_ofByteArray] at hsmall
  have hlocate := locate_spelling hsmall hdrop
  refine ⟨i, hi, ?_⟩
  rw [hf]
  exact ⟨rfl, hlocate, fun options => build_of_locate_error hlocate options codec⟩

end Index

end PakIndex
