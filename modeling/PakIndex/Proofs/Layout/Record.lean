import PakIndex.Layout.DirectoryRecord
import PakIndex.Layout.LocalHeader
import PakIndex.Layout.Trailer
import PakIndex.Proofs.Layout.Field

/-!
# Written records are read back

* **`Trailer.parse_encode`**, **`LocalHeader.parse_fixedPart`**,
  **`DirectoryRecord.parse_fixedPart`**: the fixed parts of what is written are read back, whatever
  follows them.
* `DirectoryRecord.fixedBytes`: a fixed part with its own lengths; **`parse_fixedBytes`**: it is
  read back, too.
* `Trailer.encode_of_parse`, `DirectoryRecord.fixedBytes_of_parse`: what is read is written as it
  stood.
* `Trailer.length_encode`, `LocalHeader.length_encode`, `DirectoryRecord.length_encode`: how long
  records are.
-/

namespace PakIndex

open Bytes

/-! ## Trailer -/

namespace Trailer

@[simp] theorem length_signature : signature.length = 4 := by decide

@[simp] theorem length_encode (t : Trailer) : t.encode.length = 22 := by
  simp only [encode, List.length_append, length_signature, length_le16, length_le32]

theorem take_encode (t : Trailer) (rest : Bytes) : (t.encode ++ rest).take 4 = signature := by
  simp only [encode, List.append_assoc]
  exact List.take_left' rfl

/-- **A written trailer is read back.** -/
theorem parse_encode (t : Trailer) (rest : Bytes) : parse (t.encode ++ rest) = .ok t := by
  have hlen : ¬ (t.encode ++ rest).length < fixedSize := by
    rw [List.length_append, length_encode, fixedSize]
    omega
  rw [parse, if_neg (not_or.mpr ⟨hlen, not_not.mpr (take_encode t rest)⟩)]
  simp [encode, u16At_skip, u32At_skip]

/-- **A trailer that is read** is written as it stood. -/
theorem encode_of_parse {bs : Bytes} {t : Trailer} (h : parse bs = .ok t) :
    t.encode = bs.take fixedSize := by
  unfold parse at h
  split_ifs at h with hbad
  cases h
  rw [not_or, not_lt, not_not] at hbad
  obtain ⟨hlen, hsig⟩ := hbad
  change 22 ≤ bs.length at hlen
  have hsig : signature = bs.field 0 4 := hsig.symm
  rw [encode, le16_u16At (by omega), le16_u16At (by omega), le16_u16At (by omega),
    le16_u16At (by omega), le32_u32At (by omega), le32_u32At (by omega), le16_u16At (by omega),
    hsig, field_append bs 0 4 2, field_append bs 0 6 2, field_append bs 0 8 2,
    field_append bs 0 10 2, field_append bs 0 12 4, field_append bs 0 16 4, field_append bs 0 20 2]
  rfl

end Trailer

/-! ## Descriptor -/

namespace Descriptor

@[simp] theorem length_encode (d : Descriptor) : d.encode.length = 12 := by
  simp only [encode, List.length_append, length_le32]

theorem readAt_skip {a b : Bytes} {start : Nat} (h : a.length ≤ start) :
    readAt (a ++ b) start = readAt b (start - a.length) := by
  have h₁ : start + 4 - a.length = start - a.length + 4 := by omega
  have h₂ : start + 8 - a.length = start - a.length + 8 := by omega
  rw [readAt, u32At_skip h, u32At_skip (by omega), u32At_skip (by omega), h₁, h₂, readAt]

theorem encode_readAt {bs : Bytes} {start : Nat} (h : start + 12 ≤ bs.length) :
    (readAt bs start).encode = bs.field start 12 := by
  rw [encode, readAt, le32_u32At (by omega), le32_u32At (by omega), le32_u32At (by omega),
    field_append bs start 4 4, field_append bs start 8 4]

@[simp] theorem readAt_encode (d : Descriptor) (rest : Bytes) :
    readAt (d.encode ++ rest) 0 = d := by
  simp [readAt, encode, u32At_skip]

end Descriptor

/-! ## Local header -/

namespace LocalHeader

@[simp] theorem length_fixedPart (h : LocalHeader) (n m : Nat) : (h.fixedPart n m).length = 30 := by
  simp only [fixedPart, List.length_append, length_le16, length_le32, Descriptor.length_encode]

@[simp] theorem length_encode (h : LocalHeader) (name extra : Bytes) :
    (h.encode name extra).length = 30 + name.length + extra.length := by
  rw [encode, List.length_append, List.length_append, length_fixedPart]

theorem parse_fixedPart {h : LocalHeader} (hm : Method.ofCode h.method.code = h.method) (n m : Nat)
    (rest : Bytes) : parse (h.fixedPart n m ++ rest) =
      .ok (some { h with nameLength := .ofNat n, extraLength := .ofNat m }) := by
  have hsig : u32At (h.fixedPart n m ++ rest) 0 = signature := by
    simp only [fixedPart, List.append_assoc, u32At_le32]
  have hlen : (h.fixedPart n m ++ rest).length = 30 + rest.length := by
    rw [List.length_append, length_fixedPart]
  rw [parse, if_neg (by omega), if_neg (not_not.mpr hsig), if_neg (by rw [fixedSize]; omega)]
  simp [fixedPart, u16At_skip, Descriptor.readAt_skip, hm]

end LocalHeader

/-! ## Directory record -/

namespace DirectoryRecord

@[simp] theorem length_fixedPart (r : DirectoryRecord) (n : Nat) : (r.fixedPart n).length = 46 := by
  simp only [fixedPart, List.length_append, length_le16, length_le32, Descriptor.length_encode]

@[simp] theorem length_encode (r : DirectoryRecord) (name : Bytes) :
    (r.encode name).length = 46 + name.length := by
  rw [encode, List.length_append, length_fixedPart]

/-- The fixed part of a record with its own lengths of name, extra field and comment. -/
def fixedBytes (r : DirectoryRecord) : Bytes :=
  le32 signature ++ le16 r.versionMadeBy ++ le16 r.versionNeeded ++ le16 r.flags
    ++ le16 r.method.code ++ le16 r.time ++ le16 r.date ++ r.descriptor.encode
    ++ le16 r.nameLength ++ le16 r.extraLength ++ le16 r.commentLength ++ le16 r.diskNumberStart
    ++ le16 r.internalAttributes ++ le32 r.attributes ++ le32 r.headerOffset

@[simp] theorem length_fixedBytes (r : DirectoryRecord) : r.fixedBytes.length = 46 := by
  simp only [fixedBytes, List.length_append, length_le16, length_le32, Descriptor.length_encode]

theorem parse_fixedBytes {r : DirectoryRecord} (hm : Method.ofCode r.method.code = r.method)
    (rest : Bytes) : parse (r.fixedBytes ++ rest) = .ok r := by
  have hsig : u32At (r.fixedBytes ++ rest) 0 = signature := by
    simp only [fixedBytes, List.append_assoc, u32At_le32]
  have hlen : (r.fixedBytes ++ rest).length = 46 + rest.length := by
    rw [List.length_append, length_fixedBytes]
  rw [parse, if_neg (by omega), if_neg (not_not.mpr hsig), if_neg (by rw [fixedSize]; omega)]
  simp [fixedBytes, u16At_skip, u32At_skip, Descriptor.readAt_skip, hm]

theorem fixedBytes_of_parse {bs : Bytes} {r : DirectoryRecord} (h : parse bs = .ok r) :
    r.fixedBytes = bs.take 46 := by
  unfold parse at h
  split_ifs at h with hfour hsig hlen
  cases h
  have hlen : 46 ≤ bs.length := not_lt.mp hlen
  rw [not_not] at hsig
  have hhalf : ∀ n, n + 2 ≤ 46 → le16 (u16At bs n) = bs.field n 2 := fun n hn =>
    le16_u16At (by omega)
  have hword : ∀ n, n + 4 ≤ 46 → le32 (u32At bs n) = bs.field n 4 := fun n hn =>
    le32_u32At (by omega)
  have hwords : (Descriptor.readAt bs 16).encode = bs.field 16 12 :=
    Descriptor.encode_readAt (by omega)
  simp only [fixedBytes, Method.code_ofCode, ← hsig, hhalf, hword, hwords, field_zero_append,
    Nat.reduceAdd, Nat.reduceLeDiff]
  rfl

/-- The record with a name that is written instead of the one it had, and without extra field and
comment. -/
def named (r : DirectoryRecord) (name : Bytes) : DirectoryRecord :=
  { r with nameLength := .ofNat name.length, extraLength := 0, commentLength := 0 }

theorem fixedBytes_named (r : DirectoryRecord) (name : Bytes) :
    (r.named name).fixedBytes = r.fixedPart name.length := rfl

theorem parse_fixedPart {r : DirectoryRecord} (hm : Method.ofCode r.method.code = r.method)
    (name rest : Bytes) : parse (r.fixedPart name.length ++ rest) = .ok (r.named name) :=
  parse_fixedBytes (r := r.named name) hm rest

theorem parse_method {bs : Bytes} {r : DirectoryRecord} (h : parse bs = .ok r) :
    Method.ofCode r.method.code = r.method := by
  unfold parse at h
  split_ifs at h
  cases h
  rw [Method.code_ofCode]

theorem parse_error {bs : Bytes} {e : Error} (hlen : bs.length = fixedSize)
    (h : parse bs = .error e) : e.class = .structural := by
  have hfixed : fixedSize = 46 := rfl
  rw [parse, if_neg (by omega)] at h
  split_ifs at h
  · cases h
    rfl
  · omega

end DirectoryRecord

end PakIndex
