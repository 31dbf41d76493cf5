import PakIndex.Headers
import PakIndex.Proofs.Layout.Record
import PakIndex.Proofs.Steps
import PakIndex.Proofs.Stream

/-!
# Headers in a comment

* `Headers.ofExtended_eq_ok_iff`: what a comment with an extended header holds.
* `Headers.decode_eq_ok_iff`: which headers a located trailer has; `Headers.decode_behind_iff`: the
  same for a trailer that is followed by a comment.
* **`Headers.ofComment_dropSignature`**: the comment without the directory signature holds the
  headers without it, whatever the disk field declared.
-/

namespace PakIndex

open Bytes

/-! ## Techniques -/

theorem Encryption.ofExtended_cases {value : UInt16} {e : Encryption}
    (h : Encryption.ofExtended value = .ok e) :
    value = 0 ∧ e = .none ∨ value = 3 ∧ e = .streamCipherKeyTable := by
  unfold Encryption.ofExtended at h
  split_ifs at h with h₀ h₃
  · cases h
    exact .inl ⟨h₀, rfl⟩
  · cases h
    exact .inr ⟨h₃, rfl⟩

theorem Signing.ofCode_cases {value : UInt16} {s : Signing} (h : Signing.ofCode value = .ok s) :
    value = 0 ∧ s = .none ∨ value = 1 ∧ s = .directorySigned := by
  unfold Signing.ofCode at h
  split_ifs at h with h₀ h₁
  · cases h
    exact .inl ⟨h₀, rfl⟩
  · cases h
    exact .inr ⟨h₁, rfl⟩

theorem Encryption.ofDisk_toDisk {e : Encryption} (h : e ≠ .streamCipherKeyTable) :
    Encryption.ofDisk e.toDisk = e := by
  cases e <;> first | rfl | exact absurd rfl h

theorem Encryption.ofDisk_ne (disk : UInt16) : Encryption.ofDisk disk ≠ .streamCipherKeyTable := by
  unfold Encryption.ofDisk
  split <;> decide

theorem diskNumber_toDisk (e : Encryption) : diskNumber e.toDisk = 0 := by
  cases e <;> rfl

/-! ## Headers of a comment -/

theorem ExtendedHeader.length_encode (x : ExtendedHeader) : x.encode.length = 8 := by
  simp [ExtendedHeader.encode, ExtensionPart.sizeField]

theorem SignatureHeader.length_encode (x : SignatureHeader) :
    x.encode.length = 4 + x.signature.length := by
  simp [encode, ExtensionPart.sizeField]

theorem EncryptionHeader.length_encode (x : EncryptionHeader) :
    x.encode.length = 4 + (x.iv.length + x.keys.flatten.length) := by
  simp [encode, ExtensionPart.sizeField]

theorem ExtendedHeader.parse_encode (x : ExtendedHeader) (rest : Bytes) :
    ExtendedHeader.parse (x.encode ++ rest) = .ok x := by
  have hlen : ExtensionPart.extended.sizeField.length = 4 := by decide
  have hsize : u32At (x.encode ++ rest) 0 = 8 := by
    simp only [ExtendedHeader.encode, List.append_assoc]
    exact u32At_le32 8 _
  have hlong : (x.encode ++ rest).length = 8 + rest.length := by
    rw [List.length_append, length_encode]
  have hcheck : ExtensionPart.extended.check (x.encode ++ rest) = .ok () := by
    rw [ExtensionPart.check, hsize, if_neg (by omega), if_neg (by decide),
      if_neg (by rw [hlong]; simp only [ExtensionPart.size]; omega)]
  rw [ExtendedHeader.parse, hcheck]
  simp [ExtendedHeader.encode, u16At_skip, hlen, bind, Except.bind, pure, Except.pure]

namespace Headers

variable {x : ExtendedHeader} {comment : Bytes} {h : Headers} {legacy : Encryption} {e : Error}

/-- **What a comment with an extended header holds**: exactly the headers that the techniques of the
extended header ask for, one after the other. -/
theorem ofExtended_eq_ok_iff : ofExtended x comment = .ok h ↔
    Encryption.ofExtended x.encryption = .ok h.encryption ∧
      Signing.ofCode x.signing = .ok h.signing ∧
      comment.length = commentLength h.encryption h.signing ∧
      h.signing.headerIn (comment.drop 8) = .ok h.signature ∧
      h.encryption.headerIn ((comment.drop 8).drop h.signing.headerSize) = .ok h.encryptionHeader ∧
      h.extended = some x ∧ h.comment = comment := by
  simp only [ofExtended, bind_eq_ok_iff, guard_eq_ok_iff, not_not]
  constructor
  · rintro ⟨enc, henc, sig, hsig, hlen, s, hs, k, hk, ⟨⟩⟩
    exact ⟨henc, hsig, hlen, hs, hk, rfl, rfl⟩
  · rintro ⟨henc, hsig, hlen, hs, hk, hx, hc⟩
    refine ⟨_, henc, _, hsig, hlen, _, hs, _, hk, ?_⟩
    rw [← hx, ← hc]
    rfl

theorem ofComment_of_short (h : comment.length < 8) :
    ofComment legacy comment = .ok { encryption := legacy, comment } := by
  rw [ofComment, if_pos (show comment.length < ExtensionPart.extended.size from h)]
  rfl

theorem ofComment_eq_ok_iff (hlen : 8 ≤ comment.length) : ofComment legacy comment = .ok h ↔
    ∃ x, ExtendedHeader.parse comment = .ok x ∧ ¬ (x.encryption ≠ 0 ∧ legacy.isEncrypted) ∧
      ofExtended x comment = .ok h := by
  have hlen : ¬ comment.length < ExtensionPart.extended.size := Nat.not_lt.mpr hlen
  rw [ofComment, if_neg hlen]
  simp only [bind_eq_ok_iff, guard_eq_ok_iff]

theorem comment_of_ofComment (h' : ofComment legacy comment = .ok h) : h.comment = comment := by
  by_cases hlen : comment.length < 8
  · rw [ofComment_of_short hlen] at h'
    cases h'
    rfl
  · obtain ⟨x, -, -, hx⟩ := (ofComment_eq_ok_iff (by omega)).mp h'
    exact (ofExtended_eq_ok_iff.mp hx).2.2.2.2.2.2

/-- Whether headers are those that their comment holds, for some technique of the disk field. -/
def Readable (h : Headers) : Prop :=
  ∃ legacy, legacy ≠ .streamCipherKeyTable ∧ ofComment legacy h.comment = .ok h

theorem Readable.cases (hr : h.Readable) :
    (∃ legacy comment, legacy ≠ .streamCipherKeyTable ∧ comment.length < 8 ∧
      h = { encryption := legacy, comment }) ∨
    8 ≤ h.comment.length ∧ ∃ x, ExtendedHeader.parse h.comment = .ok x ∧
      ofExtended x h.comment = .ok h := by
  obtain ⟨legacy, hl, h'⟩ := hr
  by_cases hlen : h.comment.length < 8
  · rw [ofComment_of_short hlen] at h'
    exact .inl ⟨legacy, h.comment, hl, hlen, (Except.ok.inj h').symm⟩
  · have hlen : 8 ≤ h.comment.length := by omega
    obtain ⟨x, hx, -, hext⟩ := (ofComment_eq_ok_iff hlen).mp h'
    exact .inr ⟨hlen, x, hx, hext⟩

theorem Readable.extended_of_signed (hr : h.Readable) (hs : h.signing = .directorySigned) :
    ∃ x, ExtendedHeader.parse h.comment = .ok x ∧ h.extended = some x ∧
      h.comment.length = 268 + h.encryption.headerSize := by
  rcases hr.cases with ⟨legacy, comment, -, -, rfl⟩ | ⟨-, x, hx, hext⟩
  · cases hs
  · obtain ⟨-, -, hsize, -, -, hextended, -⟩ := ofExtended_eq_ok_iff.mp hext
    rw [hs] at hsize
    exact ⟨x, hx, hextended, hsize⟩

/-! ## Without the directory signature -/

/-- The technique that the disk field of a rewritten trailer declares. -/
def diskEncryption (h : Headers) : Encryption :=
  if h.extended.isNone then h.encryption else .none

theorem dropSignature_of_unsigned (hs : h.signing = .none) : h.dropSignature = h := by
  rw [dropSignature, hs]

theorem dropSignature_of_signed (hs : h.signing = .directorySigned) (hx : h.extended = some x) :
    h.dropSignature = { h with
      signing := .none, extended := some { x with signing := 0 }, signature := none,
      comment := ExtendedHeader.encode { x with signing := 0 } ++ h.comment.drop 268 } := by
  simp only [dropSignature, hs, hx]
  rfl

/-- **The comment without the directory signature holds the headers without it**, with the technique
that a rewritten trailer declares. -/
theorem ofComment_dropSignature (hr : h.Readable) :
    ofComment h.dropSignature.diskEncryption h.dropSignature.comment = .ok h.dropSignature ∧
      h.dropSignature.diskEncryption ≠ .streamCipherKeyTable := by
  rcases hr.cases with ⟨legacy, comment, hl, hlen, rfl⟩ | ⟨hlen, x, hx, hext⟩
  · exact ⟨ofComment_of_short hlen, hl⟩
  obtain ⟨henc, hsig, hsize, hs, hk, hx', -⟩ := ofExtended_eq_ok_iff.mp hext
  -- An extended header stays, so the disk field declares nothing.
  suffices h.dropSignature.diskEncryption = .none ∧
      ofComment .none h.dropSignature.comment = .ok h.dropSignature by
    rw [this.1]
    exact ⟨this.2, by decide⟩
  cases hsigning : h.signing with
  | none =>
    rw [dropSignature_of_unsigned hsigning, diskEncryption, hx']
    refine ⟨rfl, (ofComment_eq_ok_iff hlen).mpr ⟨x, hx, ?_, hext⟩⟩
    exact fun h => absurd h.2 (by decide)
  | directorySigned =>
    have hlen8 := ExtendedHeader.length_encode { x with signing := 0 }
    rw [dropSignature_of_signed hsigning hx']
    refine ⟨rfl, (ofComment_eq_ok_iff ?_).mpr ⟨_, ExtendedHeader.parse_encode _ _, ?_, ?_⟩⟩
    · rw [List.length_append]
      omega
    · exact fun h => absurd h.2 (by decide)
    · refine ofExtended_eq_ok_iff.mpr ⟨henc, rfl, ?_, rfl, ?_, rfl, rfl⟩
      · rw [List.length_append, List.length_drop, hlen8, hsize, hsigning]
        show 8 + (8 + 260 + h.encryption.headerSize - 268) = 8 + 0 + h.encryption.headerSize
        omega
      · rw [List.drop_left' hlen8, ← hk, hsigning]
        show h.encryption.headerIn ((h.comment.drop 268).drop 0) = _
        rw [List.drop_drop, List.drop_drop]
        rfl

theorem signature_dropSignature (hr : h.Readable) :
    h.dropSignature.signing = .none ∧ h.dropSignature.signature = none := by
  rcases hr.cases with ⟨legacy, comment, -, -, rfl⟩ | ⟨-, x, -, hext⟩
  · exact ⟨rfl, rfl⟩
  obtain ⟨-, -, -, hs, -, hx, -⟩ := ofExtended_eq_ok_iff.mp hext
  cases hsigning : h.signing with
  | none =>
    rw [hsigning] at hs
    rw [dropSignature_of_unsigned hsigning]
    exact ⟨hsigning, (Except.ok.inj hs).symm⟩
  | directorySigned =>
    rw [dropSignature_of_signed hsigning hx]
    exact ⟨rfl, rfl⟩

theorem encryptionHeader_dropSignature (h : Headers) :
    h.dropSignature.encryptionHeader = h.encryptionHeader := by
  unfold dropSignature
  split <;> rfl

theorem encryption_dropSignature (h : Headers) : h.dropSignature.encryption = h.encryption := by
  unfold dropSignature
  split <;> rfl

theorem length_comment_dropSignature (hr : h.Readable) :
    h.dropSignature.comment.length ≤ h.comment.length := by
  cases hsigning : h.signing with
  | none => rw [dropSignature_of_unsigned hsigning]
  | directorySigned =>
    obtain ⟨x, -, hx, hlen⟩ := hr.extended_of_signed hsigning
    rw [dropSignature_of_signed hsigning hx, List.length_append, List.length_drop,
      ExtendedHeader.length_encode]
    omega

/-! ## Headers of a located trailer -/

section Decode

variable {s : Stream} {l : LocatedTrailer}

theorem read_comment (hl : l.offset + Trailer.fixedSize + l.record.commentLength.toNat = s.size) :
    s.read (l.offset + Trailer.fixedSize) l.plain.record.commentLength.toNat =
      .ok (s.toList.field (l.offset + Trailer.fixedSize) l.record.commentLength.toNat) :=
  Stream.read_of_le hl.le

/-- **Which headers a trailer has**, wherever it stands. -/
theorem decode_eq_ok_iff_read : decode s l = .ok h ↔ ∃ comment,
    s.read (l.offset + Trailer.fixedSize) l.record.commentLength.toNat = .ok comment ∧
      ofComment (.ofDisk l.record.disk) comment = .ok h ∧
      (diskNumber l.record.disk = 0 ∧ l.record.directoryStartDisk = 0 ∧
        l.record.entriesOnDisk = l.record.entriesTotal) ∧
      l.record.directoryEnd ≤ l.offset := by
  simp only [decode, bind_eq_ok_iff, guard_eq_ok_iff, not_or, not_not, not_lt]
  constructor
  · rintro ⟨comment, hc, headers, hh, hdisk, hend, ⟨⟩⟩
    exact ⟨comment, hc, hh, hdisk, hend⟩
  · rintro ⟨comment, hc, hh, hdisk, hend⟩
    exact ⟨comment, hc, h, hh, hdisk, hend, rfl⟩

theorem decode_eq_ok_iff
    (hl : l.offset + Trailer.fixedSize + l.record.commentLength.toNat = s.size) :
    decode s l = .ok h ↔
      ofComment (.ofDisk l.record.disk)
        (s.toList.field (l.offset + Trailer.fixedSize) l.record.commentLength.toNat) = .ok h ∧
      (diskNumber l.record.disk = 0 ∧ l.record.directoryStartDisk = 0 ∧
        l.record.entriesOnDisk = l.record.entriesTotal) ∧
      l.record.directoryEnd ≤ l.offset := by
  have hread : s.read (l.offset + Trailer.fixedSize) l.record.commentLength.toNat = .ok _ :=
    read_comment hl
  rw [decode_eq_ok_iff_read, hread]
  simp

theorem decode_behind_iff {t : Trailer} {comment : Bytes} {pos size : Nat}
    (hs : s.toList.drop pos = t.encode ++ comment) (hlen : t.commentLength.toNat = comment.length) :
    decode s ⟨t, pos, size⟩ = .ok h ↔ ofComment (.ofDisk t.disk) comment = .ok h ∧
      (diskNumber t.disk = 0 ∧ t.directoryStartDisk = 0 ∧ t.entriesOnDisk = t.entriesTotal) ∧
      t.directoryEnd ≤ pos := by
  have hfixed : Trailer.fixedSize = 22 := rfl
  have hsize : pos + Trailer.fixedSize + t.commentLength.toNat = s.size := by
    have h := congrArg List.length hs
    rw [List.length_drop, Stream.length_toList, List.length_append, Trailer.length_encode] at h
    omega
  have hcomment : s.toList.field (pos + Trailer.fixedSize) t.commentLength.toNat = comment := by
    rw [Bytes.field, ← List.drop_drop, hs, hfixed, List.drop_left' (Trailer.length_encode t), hlen,
      List.take_length]
  rw [decode_eq_ok_iff hsize]
  show ofComment _ (s.toList.field (pos + Trailer.fixedSize) t.commentLength.toNat) = _ ∧ _ ↔ _
  rw [hcomment]

end Decode

end Headers

end PakIndex
