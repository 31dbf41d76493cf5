import PakIndex.Layout.Extension
import PakIndex.Proofs.Checks
import PakIndex.Proofs.Layout.Field

/-!
# Extension headers as they stand

* `ExtensionPart.check_failsAs`: what is asked of a header, where there is room for it;
  `ExtendedHeader.parse_failsAs` and so on: nothing else is asked to read one.
* `ExtendedHeader.encode_of_parse`, `SignatureHeader.encode_of_parse`,
  **`EncryptionHeader.encode_of_parse`**: a header that is read is written as it stood.
-/

namespace PakIndex

open Bytes

variable {bs : Bytes}

namespace ExtensionPart

variable {part : ExtensionPart}

theorem four_le_size (part : ExtensionPart) : 4 ≤ part.size := by
  cases part <;> decide

theorem check_failsAs (part : ExtensionPart) (hlen : part.size ≤ bs.length) :
    FailsAs (part.check bs)
    [((bs.u32At 0).toNat = part.size, .corruptExtendedHeader (.wrongSize part (bs.u32At 0)))] := by
  have hfour := part.four_le_size
  rw [check, if_neg (by omega)]
  by_cases hsize : (bs.u32At 0).toNat = part.size
  · rw [if_neg (not_not.mpr hsize), if_neg (by omega)]
    exact .cons hsize .ok
  · rw [if_pos hsize]
    exact .first hsize

theorem check_ok (h : part.check bs = .ok ()) :
    part.size ≤ bs.length ∧ part.sizeField = bs.field 0 4 := by
  unfold check at h
  split_ifs at h with hfour hsize hlen
  refine ⟨by omega, ?_⟩
  rw [not_not] at hsize
  rw [← le32_u32At (by omega), le32, hsize, sizeField]

end ExtensionPart

namespace ExtendedHeader

variable {x : ExtendedHeader}

theorem parse_failsAs (hlen : 8 ≤ bs.length) : FailsAs (parse bs)
    [((bs.u32At 0).toNat = 8, .corruptExtendedHeader (.wrongSize .extended (bs.u32At 0)))] :=
  (ExtensionPart.check_failsAs .extended hlen).bind fun _ _ => .ok

theorem eq_of_parse (h : parse bs = .ok x) : x = ⟨bs.u16At 4, bs.u16At 6⟩ := by
  obtain ⟨u, -, ⟨⟩⟩ := bind_eq_ok_iff.mp h
  rfl

theorem encode_of_parse (h : parse bs = .ok x) : x.encode = bs.field 0 8 := by
  obtain rfl := eq_of_parse h
  obtain ⟨u, hc, -⟩ := bind_eq_ok_iff.mp h
  obtain ⟨hlen, hsize⟩ := ExtensionPart.check_ok hc
  change 8 ≤ bs.length at hlen
  rw [encode, hsize, le16_u16At (by omega), le16_u16At (by omega), field_append bs 0 4 2,
    field_append bs 0 6 2]

end ExtendedHeader

namespace SignatureHeader

variable {x : SignatureHeader}

theorem parse_failsAs (hlen : 260 ≤ bs.length) : FailsAs (parse bs)
    [((bs.u32At 0).toNat = 260, .corruptExtendedHeader (.wrongSize .signature (bs.u32At 0)))] :=
  (ExtensionPart.check_failsAs .signature hlen).bind fun _ _ => .ok

theorem encode_of_parse (h : parse bs = .ok x) : x.encode = bs.field 0 260 := by
  obtain ⟨u, hc, ⟨⟩⟩ := bind_eq_ok_iff.mp h
  rw [encode, (ExtensionPart.check_ok hc).2, field_append bs 0 4 256]

end SignatureHeader

theorem Bytes.flatten_fields (bs : Bytes) (start width count : Nat) :
    ((List.range count).map fun i => bs.field (start + width * i) width).flatten =
      bs.field start (width * count) := by
  induction count with
  | zero => rw [Nat.mul_zero, Bytes.field, List.take_zero]; rfl
  | succ count ih =>
    rw [List.range_succ, List.map_append, List.flatten_append, ih, List.map_singleton,
      List.flatten_singleton, field_append, Nat.mul_succ]

namespace EncryptionHeader

variable {x : EncryptionHeader}

theorem parse_failsAs (hlen : 276 ≤ bs.length) : FailsAs (parse bs)
    [((bs.u32At 0).toNat = 276, .corruptExtendedHeader (.wrongSize .encryption (bs.u32At 0)))] :=
  (ExtensionPart.check_failsAs .encryption hlen).bind fun _ _ => .ok

/-- **An encryption header that is read** is written as it stood, key by key. -/
theorem encode_of_parse (h : parse bs = .ok x) : x.encode = bs.field 0 276 := by
  obtain ⟨u, hc, ⟨⟩⟩ := bind_eq_ok_iff.mp h
  rw [encode, (ExtensionPart.check_ok hc).2, flatten_fields, field_append bs 0 4 16,
    field_append bs 0 20 256]

end EncryptionHeader

end PakIndex
