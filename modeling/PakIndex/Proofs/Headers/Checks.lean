import PakIndex.Proofs.Checks
import PakIndex.Proofs.Headers
import PakIndex.Proofs.Layout.Extension

/-!
# What is asked of headers

* `Trailer.extendedChecks`, `LocatedTrailer.checks`: what is asked of a comment with an extended
  header and of a located trailer, in order. All of it is said on the bytes of the comment.
* **`Headers.decode_failsAs`**: nothing else is asked.
* `Headers.decode_error`: reading the headers of a located trailer fails only because the trailer or
  its comment is malformed.
-/

namespace PakIndex

open Bytes

/-! ## Techniques -/

/-- Whether a disk field declares one of the old techniques. -/
def DeclaresOld (disk : UInt16) : Prop := disk >>> 14 = 1 ∨ disk >>> 14 = 2

instance (disk : UInt16) : Decidable (DeclaresOld disk) := by unfold DeclaresOld; infer_instance

theorem Encryption.isEncrypted_ofDisk {disk : UInt16} :
    (Encryption.ofDisk disk).isEncrypted = true ↔ DeclaresOld disk := by
  rw [DeclaresOld, ← UInt16.toNat_inj, ← UInt16.toNat_inj, Encryption.ofDisk]
  split
  · rename_i h
    exact iff_of_true rfl (.inl h)
  · rename_i h
    exact iff_of_true rfl (.inr h)
  · rename_i h₁ h₂
    exact iff_of_false nofun (not_or.mpr ⟨h₁, h₂⟩)

theorem Encryption.ofExtended_failsAs (value : UInt16) : FailsAs (Encryption.ofExtended value)
    [(value = 0 ∨ value = 3, .unsupportedEncryption value)] := by
  unfold Encryption.ofExtended
  by_cases h₀ : value = 0
  · rw [if_pos h₀]
    exact .cons (.inl h₀) .ok
  by_cases h₃ : value = 3
  · rw [if_neg h₀, if_pos h₃]
    exact .cons (.inr h₃) .ok
  · rw [if_neg h₀, if_neg h₃]
    exact .first (not_or.mpr ⟨h₀, h₃⟩)

theorem Signing.ofCode_failsAs (value : UInt16) : FailsAs (Signing.ofCode value)
    [(value = 0 ∨ value = 1, .unsupportedSigning value)] := by
  unfold Signing.ofCode
  by_cases h₀ : value = 0
  · rw [if_pos h₀]
    exact .cons (.inl h₀) .ok
  by_cases h₁ : value = 1
  · rw [if_neg h₀, if_pos h₁]
    exact .cons (.inr h₁) .ok
  · rw [if_neg h₀, if_neg h₁]
    exact .first (not_or.mpr ⟨h₀, h₁⟩)

/-! ## What is asked -/

namespace Headers

/-- The length of the signature header that a comment declares. -/
def signatureLength (comment : Bytes) : Nat := if comment.u16At 6 = 1 then 260 else 0

/-- The length of a comment with the headers that its extended header declares. -/
def declaredLength (comment : Bytes) : Nat :=
  8 + signatureLength comment + if comment.u16At 4 = 3 then 276 else 0

end Headers

open Headers in
/-- What is asked of a comment with room for an extended header, in this order: the header starts
with its size, declares no technique besides an old one in the disk field, and only techniques that
are known; the comment has exactly the headers that it declares, and these start with their
sizes. -/
def Trailer.extendedChecks (t : Trailer) (comment : Bytes) : Checks :=
  [((comment.u32At 0).toNat = 8, .corruptExtendedHeader (.wrongSize .extended (comment.u32At 0))),
    (¬ (comment.u16At 4 ≠ 0 ∧ DeclaresOld t.disk), .ambiguousEncryption),
    (comment.u16At 4 = 0 ∨ comment.u16At 4 = 3, .unsupportedEncryption (comment.u16At 4)),
    (comment.u16At 6 = 0 ∨ comment.u16At 6 = 1, .unsupportedSigning (comment.u16At 6)),
    (comment.length = declaredLength comment,
      .commentLengthMismatch t.commentLength (declaredLength comment)),
    (comment.u16At 6 = 1 → (comment.u32At 8).toNat = 260,
      .corruptExtendedHeader (.wrongSize .signature (comment.u32At 8))),
    (comment.u16At 4 = 3 → (comment.u32At (8 + signatureLength comment)).toNat = 276,
      .corruptExtendedHeader
        (.wrongSize .encryption (comment.u32At (8 + signatureLength comment))))]

/-- What is asked of a located trailer with its comment, in this order: the comment is short or has
an extended header as it should be, the archive is one volume, and its directory ends before the
trailer. -/
def LocatedTrailer.checks (l : LocatedTrailer) (comment : Bytes) : Checks :=
  (if comment.length < 8 then [] else l.record.extendedChecks comment) ++
    [(l.record.disk &&& 0x3FFF = 0 ∧ l.record.directoryStartDisk = 0 ∧
        l.record.entriesOnDisk = l.record.entriesTotal, .unsupportedMultivolume),
      (l.record.directoryOffset.toNat + l.record.directorySize.toNat ≤ l.offset,
        .directoryOutOfRange l.record.directoryOffset l.record.directorySize l.offset)]

/-! ## How reading the headers fails -/

theorem Signing.headerIn_failsAs {code : UInt16} {s : Signing} {bs : Bytes}
    (hs : Signing.ofCode code = .ok s) (hlen : s.headerSize ≤ bs.length) : FailsAs (s.headerIn bs)
      [(code = 1 → (bs.u32At 0).toNat = 260,
        .corruptExtendedHeader (.wrongSize .signature (bs.u32At 0)))] := by
  rcases Signing.ofCode_cases hs with ⟨rfl, rfl⟩ | ⟨rfl, rfl⟩
  · exact .cons (fun h => absurd h (by decide)) .ok
  · exact .congr (forall_prop_of_true rfl) (.map (SignatureHeader.parse_failsAs hlen))

theorem Encryption.headerIn_failsAs {value : UInt16} {t : Encryption} {bs : Bytes}
    (ht : Encryption.ofExtended value = .ok t) (hlen : t.headerSize ≤ bs.length) :
    FailsAs (t.headerIn bs) [(value = 3 → (bs.u32At 0).toNat = 276,
      .corruptExtendedHeader (.wrongSize .encryption (bs.u32At 0)))] := by
  rcases Encryption.ofExtended_cases ht with ⟨rfl, rfl⟩ | ⟨rfl, rfl⟩
  · exact .cons (fun h => absurd h (by decide)) .ok
  · exact .congr (forall_prop_of_true rfl) (.map (EncryptionHeader.parse_failsAs hlen))

theorem Bytes.u32At_drop (bs : Bytes) (n start : Nat) :
    Bytes.u32At (bs.drop n) start = bs.u32At (n + start) := by
  rw [Bytes.u32At, Bytes.field, List.drop_drop, Bytes.u32At, Bytes.field]

namespace Headers

variable {s : Stream} {l : LocatedTrailer} {comment : Bytes} {h : Headers} {e : Error}

theorem headerSize_of_ofCode {sig : Signing}
    (hsig : Signing.ofCode (comment.u16At 6) = .ok sig) :
    sig.headerSize = signatureLength comment := by
  rcases Signing.ofCode_cases hsig with ⟨hcode, rfl⟩ | ⟨hcode, rfl⟩ <;>
    rw [signatureLength, hcode] <;> rfl

theorem commentLength_eq {enc : Encryption} {sig : Signing}
    (henc : Encryption.ofExtended (comment.u16At 4) = .ok enc)
    (hsig : Signing.ofCode (comment.u16At 6) = .ok sig) :
    commentLength enc sig = declaredLength comment := by
  rw [commentLength, headerSize_of_ofCode hsig, declaredLength]
  rcases Encryption.ofExtended_cases henc with ⟨hvalue, rfl⟩ | ⟨hvalue, rfl⟩ <;>
    rw [hvalue] <;> rfl

theorem ofExtended_failsAs : FailsAs (ofExtended ⟨comment.u16At 4, comment.u16At 6⟩ comment)
    [(comment.u16At 4 = 0 ∨ comment.u16At 4 = 3, .unsupportedEncryption (comment.u16At 4)),
      (comment.u16At 6 = 0 ∨ comment.u16At 6 = 1, .unsupportedSigning (comment.u16At 6)),
      (comment.length = declaredLength comment,
        .commentLengthMismatch (.ofNat comment.length) (declaredLength comment)),
      (comment.u16At 6 = 1 → (comment.u32At 8).toNat = 260,
        .corruptExtendedHeader (.wrongSize .signature (comment.u32At 8))),
      (comment.u16At 4 = 3 → (comment.u32At (8 + signatureLength comment)).toNat = 276,
        .corruptExtendedHeader
          (.wrongSize .encryption (comment.u32At (8 + signatureLength comment))))] := by
  refine (Encryption.ofExtended_failsAs _).bind fun enc henc =>
    (Signing.ofCode_failsAs _).bind fun sig hsig => ?_
  have hsize := commentLength_eq henc hsig
  have hsigned := headerSize_of_ofCode hsig
  have hrest : ∀ n, Bytes.u32At (comment.drop n) 0 = comment.u32At n := fun n => u32At_drop _ n 0
  rw [← hsize, ← hsigned, ← hrest, ← hrest (8 + _), ← List.drop_drop]
  refine .require .rfl fun hlen => ?_
  change comment.length = 8 + sig.headerSize + enc.headerSize at hlen
  have hroom : (comment.drop ExtensionPart.extended.size).length = comment.length - 8 :=
    List.length_drop
  have hroom' : ((comment.drop ExtensionPart.extended.size).drop sig.headerSize).length =
    (comment.drop ExtensionPart.extended.size).length - sig.headerSize := List.length_drop
  exact (Signing.headerIn_failsAs hsig (by omega)).bind fun _ _ =>
    (Encryption.headerIn_failsAs henc (by omega)).bind fun _ _ => .ok

/-- **Reading a comment with room for an extended header** fails for the first of the checks that it
does not pass. -/
theorem ofComment_failsAs {t : Trailer} (hlen : 8 ≤ comment.length)
    (hc : t.commentLength = .ofNat comment.length) :
    FailsAs (ofComment (.ofDisk t.disk) comment) (t.extendedChecks comment) := by
  have hlong : ¬ comment.length < ExtensionPart.extended.size := Nat.not_lt.mpr hlen
  rw [ofComment, if_neg hlong, Trailer.extendedChecks, hc]
  refine (ExtendedHeader.parse_failsAs hlen).bind fun x hx => ?_
  obtain rfl := ExtendedHeader.eq_of_parse hx
  exact .guard (by rw [Encryption.isEncrypted_ofDisk]) fun _ => ofExtended_failsAs

/-- **Reading the headers of a located trailer** fails for the first of the checks that it does not
pass. -/
theorem decode_failsAs
    (hl : l.offset + Trailer.fixedSize + l.record.commentLength.toNat = s.size) :
    FailsAs (decode s l)
      (l.checks (s.toList.field (l.offset + 22) l.record.commentLength.toNat)) := by
  have hlen := Stream.length_field hl.le
  change (s.toList.field (l.offset + 22) l.record.commentLength.toNat).length = _ at hlen
  have hread : s.read (l.offset + Trailer.fixedSize) l.record.plain.commentLength.toNat =
    .ok (s.toList.field (l.offset + 22) l.record.commentLength.toNat) := read_comment hl
  generalize s.toList.field (l.offset + 22) l.record.commentLength.toNat = comment at hlen hread
  have hcomment : FailsAs (ofComment (.ofDisk l.record.disk) comment)
      (if comment.length < 8 then [] else l.record.extendedChecks comment) := by
    by_cases hshort : comment.length < 8
    · rw [ofComment_of_short hshort, if_pos hshort]
      exact .ok
    · rw [if_neg hshort]
      refine ofComment_failsAs (by omega) ?_
      rw [hlen, UInt16.ofNat_toNat]
  rw [decode]
  change FailsAs (s.read _ _ >>= _) ([] ++ _)
  refine .bind (by rw [hread]; exact .ok) fun comment' hcomment' => ?_
  cases hread.symm.trans hcomment'
  refine hcomment.bind fun h _ => .guard ?_ fun _ => .guard not_lt.symm fun _ => .ok
  rw [not_or, not_or, not_not, not_not, not_not]
  rfl

theorem class_checks (l : LocatedTrailer) (comment : Bytes) :
    ∀ c ∈ l.checks comment, c.2.class = .structural := by
  unfold LocatedTrailer.checks Trailer.extendedChecks
  split <;> simp [Error.class]

/-- **Reading the headers of a located trailer fails only because the trailer or its comment is
malformed.** -/
theorem decode_error (hl : l.offset + Trailer.fixedSize + l.record.commentLength.toNat = s.size)
    (h : decode s l = .error e) : e.class = .structural := by
  obtain ⟨c, hc, rfl⟩ := ((decode_failsAs hl e).mp h).exists_mem
  exact class_checks _ _ c hc

end Headers

end PakIndex
