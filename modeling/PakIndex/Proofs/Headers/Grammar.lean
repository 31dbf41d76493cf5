import PakIndex.Proofs.Headers.Checks
import PakIndex.Proofs.Trailer.Search

/-!
# The grammar of comments

* `Headers.Admissible`: the comments that an archive may have, said on their bytes.
* `Headers.admissible_iff`: the admissible comments are those that pass.
* `Headers.written`: the headers of an archive as bytes; `Headers.written_eq`: nothing of a comment
  is lost.
* **`Headers.decode_grammar`**: which located trailers have headers, what these are, and how the
  others fail.
-/

namespace PakIndex

open Bytes

namespace Headers

variable {s : Stream} {l : LocatedTrailer} {comment : Bytes} {h : Headers}

/-! ## Admissible comments -/

/-- Whether bytes are a header of `size` bytes that starts with its size. -/
def IsHeader (size : Nat) (bs : Bytes) : Prop := bs.length = size ∧ (bs.u32At 0).toNat = size

/-- The comments that an archive may have whose trailer has `disk` for its disk field: a short text,
or an extended header with techniques that are known, which the disk field does not declare besides,
followed by exactly the headers that these techniques ask for. -/
inductive Admissible (disk : UInt16) : Bytes → Prop
  | text {comment : Bytes} : comment.length < 8 → Admissible disk comment
  | extended {x : ExtendedHeader} {signature key : Bytes} :
    x.encryption = 0 ∨ x.encryption = 3 → x.signing = 0 ∨ x.signing = 1 →
    ¬ (x.encryption = 3 ∧ (disk >>> 14 = 1 ∨ disk >>> 14 = 2)) →
    (if x.signing = 1 then IsHeader 260 signature else signature = []) →
    (if x.encryption = 3 then IsHeader 276 key else key = []) →
    Admissible disk (x.encode ++ (signature ++ key))

theorem hold_of_admissible {t : Trailer} (h : Admissible t.disk comment)
    (hlen : 8 ≤ comment.length) : (t.extendedChecks comment).Hold := by
  cases h with
  | text hshort => omega
  | @extended x signature key henc hsig hdisk hsignature hkey =>
    have hx := ExtendedHeader.parse_encode x (signature ++ key)
    have hsize := (ExtendedHeader.parse_failsAs hlen).exists_ok_iff.mp ⟨x, hx⟩
    have hx := ExtendedHeader.eq_of_parse hx
    have hheader := ExtendedHeader.length_encode x
    generalize hc : x.encode ++ (signature ++ key) = comment at hlen hx hsize
    have h₄ : comment.u16At 4 = x.encryption := (congrArg ExtendedHeader.encryption hx).symm
    have h₆ : comment.u16At 6 = x.signing := (congrArg ExtendedHeader.signing hx).symm
    have hsigned : signature.length = signatureLength comment := by
      rw [signatureLength, h₆]
      split_ifs at hsignature ⊢
      · exact hsignature.1
      · rw [hsignature]
        rfl
    have hkeyed : key.length = if comment.u16At 4 = 3 then 276 else 0 := by
      rw [h₄]
      split_ifs at hkey ⊢
      · exact hkey.1
      · rw [hkey]
        rfl
    simp only [Trailer.extendedChecks, Checks.hold_cons_iff]
    refine ⟨hsize _ (List.mem_singleton_self _), ?_, ?_, ?_, ?_, ?_, ?_, Checks.hold_nil⟩
    · rw [h₄]
      rintro ⟨hne, hold⟩
      exact hdisk ⟨henc.resolve_left hne, hold⟩
    · rw [h₄]
      exact henc
    · rw [h₆]
      exact hsig
    · rw [declaredLength, ← hsigned, ← hkeyed, ← hc, List.length_append, List.length_append,
        hheader, Nat.add_assoc]
    · intro hone
      rw [← h₆, if_pos hone] at hsignature
      have hfour : 0 + 4 ≤ signature.length := by
        rw [hsignature.1]
        decide
      rw [← hc, u32At_skip hheader.le, hheader, u32At, field_keep hfour]
      exact hsignature.2
    · intro hthree
      rw [← h₄, if_pos hthree] at hkey
      have hstart : (x.encode ++ signature).length = 8 + signatureLength comment := by
        rw [List.length_append, hheader, hsigned]
      rw [← hstart, ← hc, ← List.append_assoc, u32At_skip le_rfl, Nat.sub_self]
      exact hkey.2

theorem admissible_of_hold {t : Trailer} (hlen : 8 ≤ comment.length)
    (h : (t.extendedChecks comment).Hold) : Admissible t.disk comment := by
  simp only [Trailer.extendedChecks, Checks.hold_cons_iff] at h
  obtain ⟨hsize, hold, henc, hsig, hlength, hsigned, hkeyed, -⟩ := h
  obtain ⟨x, hx⟩ := (ExtendedHeader.parse_failsAs hlen).exists_ok_iff.mpr
    (Checks.hold_cons_iff.mpr ⟨hsize, Checks.hold_nil⟩)
  have hheader := ExtendedHeader.encode_of_parse hx
  obtain rfl := ExtendedHeader.eq_of_parse hx
  have hsplit : comment = ExtendedHeader.encode ⟨comment.u16At 4, comment.u16At 6⟩ ++
      (comment.field 8 (signatureLength comment) ++
        comment.drop (8 + signatureLength comment)) := by
    rw [hheader, Bytes.field, List.drop_zero, Bytes.field, ← List.drop_drop,
      List.take_append_drop, List.take_append_drop]
  rw [declaredLength] at hlength
  have hfirst : (comment.field 8 (signatureLength comment)).length = signatureLength comment := by
    rw [length_field]
    omega
  have hrest : (comment.drop (8 + signatureLength comment)).length =
      if comment.u16At 4 = 3 then 276 else 0 := by
    rw [List.length_drop]
    omega
  rw [hsplit]
  refine .extended henc hsig ?_ ?_ ?_
  · rintro ⟨hthree, hdisk⟩
    refine hold ⟨?_, hdisk⟩
    rw [show comment.u16At 4 = 3 from hthree]
    decide
  · show if comment.u16At 6 = 1 then _ else _
    rw [signatureLength] at hfirst ⊢
    split_ifs at hfirst ⊢ with hone
    · refine ⟨hfirst, ?_⟩
      rw [u32At, field_field (by decide)]
      exact hsigned hone
    · exact List.length_eq_zero_iff.mp hfirst
  · show if comment.u16At 4 = 3 then _ else _
    split_ifs at hrest ⊢ with hthree
    · refine ⟨hrest, ?_⟩
      rw [u32At_drop]
      exact hkeyed hthree
    · exact List.length_eq_zero_iff.mp hrest

/-- **The admissible comments** are the short ones and those that pass the checks. -/
theorem admissible_iff {t : Trailer} : Admissible t.disk comment ↔
    Checks.Hold (if comment.length < 8 then [] else t.extendedChecks comment) := by
  by_cases hlen : comment.length < 8
  · rw [if_pos hlen]
    exact iff_of_true (.text hlen) Checks.hold_nil
  · rw [if_neg hlen]
    exact ⟨fun h => hold_of_admissible h (by omega), admissible_of_hold (by omega)⟩

/-! ## The headers as bytes -/

/-- The headers of an archive as bytes, one after the other. -/
def written (h : Headers) : Bytes :=
  h.extended.elim [] ExtendedHeader.encode ++ (h.signature.elim [] SignatureHeader.encode ++
    h.encryptionHeader.elim [] EncryptionHeader.encode)

theorem encode_of_signatureIn {sig : Signing} {bs : Bytes} {signature : Option SignatureHeader}
    (h : sig.headerIn bs = .ok signature) :
    signature.elim [] SignatureHeader.encode = bs.field 0 sig.headerSize := by
  unfold Signing.headerIn at h
  split_ifs at h with hs
  · rw [hs]
    obtain ⟨x, hx, rfl⟩ := map_eq_ok_iff.mp h
    exact SignatureHeader.encode_of_parse hx
  · cases h
    rw [Signing.headerSize, if_neg hs, Bytes.field, List.take_zero]
    rfl

theorem encode_of_keyIn {enc : Encryption} {value : UInt16} {bs : Bytes}
    {key : Option EncryptionHeader} (henc : Encryption.ofExtended value = .ok enc)
    (h : enc.headerIn bs = .ok key) :
    key.elim [] EncryptionHeader.encode = bs.field 0 enc.headerSize := by
  rcases Encryption.ofExtended_cases henc with ⟨-, rfl⟩ | ⟨-, rfl⟩
  · cases h
    rfl
  · obtain ⟨x, hx, rfl⟩ := map_eq_ok_iff.mp h
    exact EncryptionHeader.encode_of_parse hx

/-- **Nothing of a comment is lost**: the headers that it holds are its bytes, one after the
other. -/
theorem written_eq {legacy : Encryption} (hlen : 8 ≤ comment.length)
    (h' : ofComment legacy comment = .ok h) : h.written = comment ∧ ∃ x, h.extended = some x ∧
      h.encryption.code = x.encryption ∧ h.signing.code = x.signing := by
  obtain ⟨x, hx, -, hext⟩ := (ofComment_eq_ok_iff hlen).mp h'
  obtain ⟨henc, hsig, hlength, hsignature, hkey, hextended, -⟩ := ofExtended_eq_ok_iff.mp hext
  refine ⟨?_, x, hextended, ?_, ?_⟩
  · have hfield : ∀ n width, Bytes.field (comment.drop n) 0 width = comment.field n width :=
      fun n width => by rw [Bytes.field, List.drop_drop, Nat.add_zero, Bytes.field]
    have hall : 8 + (h.signing.headerSize + h.encryption.headerSize) = comment.length := by
      rw [hlength, ← Nat.add_assoc]
      rfl
    rw [written, hextended, Option.elim_some, ExtendedHeader.encode_of_parse hx,
      encode_of_signatureIn hsignature, encode_of_keyIn henc hkey, List.drop_drop, hfield, hfield,
      field_append, field_append comment 0 8, hall, Bytes.field, List.drop_zero, List.take_length]
  · rcases Encryption.ofExtended_cases henc with ⟨hvalue, ht⟩ | ⟨hvalue, ht⟩ <;>
      rw [hvalue, ht] <;> rfl
  · rcases Signing.ofCode_cases hsig with ⟨hvalue, ht⟩ | ⟨hvalue, ht⟩ <;>
      rw [hvalue, ht] <;> rfl

/-- **The headers of an archive are read by a grammar.** A located trailer has headers if its
comment is admissible, the archive is one volume and its directory ends before the trailer, and only
then. A short comment says nothing, so that the disk field decides on the encryption; otherwise the
extended header decides, and the headers written one after the other are the comment byte for byte.
What has no headers fails with the first of the checks that it does not pass. -/
theorem decode_grammar (hl : locate s = .ok l) :
    let comment := s.toList.field (l.offset + 22) l.record.commentLength.toNat
    ((∃ h, decode s l = .ok h) ↔ Admissible l.record.disk comment ∧ l.record.disk &&& 0x3FFF = 0 ∧
      l.record.directoryStartDisk = 0 ∧ l.record.entriesOnDisk = l.record.entriesTotal ∧
      l.record.directoryOffset.toNat + l.record.directorySize.toNat ≤ l.offset) ∧
    (∀ h, decode s l = .ok h → h.comment = comment ∧
      (comment.length < 8 → h = { encryption := .ofDisk l.record.disk, comment }) ∧
      (8 ≤ comment.length → h.written = comment ∧ ∃ x, h.extended = some x ∧
        h.encryption.code = x.encryption ∧ h.signing.code = x.signing)) ∧
    ∀ e, decode s l = .error e ↔ (l.checks comment).First e := by
  intro comment
  obtain ⟨-, -, -, -, hsize, -⟩ := locate_eq_ok_iff.mp hl
  refine ⟨?_, fun h hd => ?_, decode_failsAs hsize⟩
  · rw [(decode_failsAs hsize).exists_ok_iff, LocatedTrailer.checks, Checks.hold_append_iff,
      ← admissible_iff]
    simp only [Checks.hold_cons_iff, Checks.hold_nil, and_true, and_assoc]
    rfl
  · obtain ⟨hh, -⟩ := (decode_eq_ok_iff hsize).mp hd
    refine ⟨comment_of_ofComment hh, fun hshort => ?_, fun hlong => written_eq hlong hh⟩
    cases (ofComment_of_short hshort).symm.trans hh
    rfl

/-- An archive without files that is both signed and encrypted by a table of keys; the bits of its
disk field declare no technique. -/
theorem decode_grammar_signed :
    let signature : SignatureHeader := ⟨List.replicate 256 0x5A⟩
    let key : EncryptionHeader := ⟨List.replicate 16 0x11, List.replicate 16 (List.replicate 16 7)⟩
    let comment := (ExtendedHeader.mk 3 1).encode ++ (signature.encode ++ key.encode)
    let t : Trailer := ⟨0xC000, 0, 0, 0, 0, 0, 544⟩
    let s := Stream.ofBytes (t.encode ++ comment)
    locate s = .ok ⟨t, 0, s.size⟩ ∧ ∃ h, decode s ⟨t, 0, s.size⟩ = .ok h ∧ h.written = comment ∧
      ∃ x, h.extended = some x ∧ h.encryption.code = x.encryption ∧ h.signing.code = x.signing := by
  intro signature key comment t s
  have hlen : comment.length = 544 := by decide +kernel
  have hs : s.toList = t.encode ++ comment := Stream.toList_ofBytes _
  have hsize : s.size = 566 := by
    rw [← Stream.length_toList, hs, List.length_append, Trailer.length_encode, hlen]
  -- Only at its start has the archive the first byte of the trailer's signature.
  have hfirst : 0x50 ∉ (t.encode ++ comment).drop 1 := by decide +kernel
  have hl : locate s = .ok ⟨t, 0, s.size⟩ := by
    have hsmall : s.size ≤ maxArchiveSize := hsize.trans_le (by decide)
    have hwhole : s.toList.drop 0 = t.encode ++ comment := hs
    exact (locate_written_iff hsmall hwhole hlen.symm).mpr fun k hk _ =>
      Trailer.field_ne_signature_of_notMem hfirst hk
  obtain ⟨hiff, hok, -⟩ := decode_grammar hl
  have hcomment : s.toList.field (0 + 22) t.commentLength.toNat = comment := by
    rw [hs, Bytes.field_skip (by rw [Trailer.length_encode]), Trailer.length_encode, Bytes.field]
    exact List.take_of_length_le hlen.le
  have hadmissible : Admissible t.disk comment :=
    .extended (.inr rfl) (.inr rfl) (by decide) ⟨by decide +kernel, by decide +kernel⟩
      ⟨by decide +kernel, by decide +kernel⟩
  obtain ⟨h, hh⟩ := hiff.mpr ⟨hcomment ▸ hadmissible, by decide, rfl, rfl, Nat.le_refl 0⟩
  obtain ⟨-, -, hwritten⟩ := hok h hh
  rw [hcomment, hlen] at hwritten
  exact ⟨hl, h, hh, hwritten (by decide)⟩

end Headers

end PakIndex
