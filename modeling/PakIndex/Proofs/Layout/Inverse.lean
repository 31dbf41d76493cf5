import PakIndex.Proofs.Layout.Record

/-!
# Records and local headers with other names

* `Method.HasCode`: a method is one that some code stands for.
* `Bytes.fields_of_parts`: the parts of a concatenation are its fields.
* **`DirectoryRecord.parse_encode`**, **`LocalHeader.parse_encode`**: what is written is read back,
  with the lengths of what was written.
* `DirectoryRecord.fixedPart_parts`, `LocalHeader.fixedPart_parts`: a fixed part around its lengths.
* `DirectoryRecord.field_descriptor`, `LocalHeader.field_descriptor`: where checksum and sizes
  stand.
* **`DirectoryRecord.encode_of_parse`**, **`LocalHeader.encode_of_parse`**: what is read is written
  as it stood but for its lengths.
-/

namespace PakIndex

open Bytes

/-- Whether a method is one that some code stands for. -/
def Method.HasCode (m : Method) : Prop := ∃ code, Method.ofCode code = m

theorem Method.HasCode.ofCode_code {m : Method} (h : m.HasCode) : Method.ofCode m.code = m := by
  obtain ⟨code, rfl⟩ := h
  rw [Method.code_ofCode]

theorem Bytes.fields_of_parts {before middle after : Bytes} {i j k : Nat}
    (hbefore : before.length = i) (hmiddle : middle.length = j) (hafter : after.length = k)
    (tail : Bytes) :
    Bytes.field (before ++ middle ++ after ++ tail) 0 i = before ∧
      Bytes.field (before ++ middle ++ after ++ tail) i j = middle ∧
      Bytes.field (before ++ middle ++ after ++ tail) (i + j) k = after := by
  have hfront : (before ++ middle).length = i + j := by
    rw [List.length_append, hbefore, hmiddle]
  refine ⟨?_, ?_, ?_⟩
  · rw [List.append_assoc, List.append_assoc, field_take hbefore]
  · rw [List.append_assoc, List.append_assoc, field_skip hbefore.le, hbefore, Nat.sub_self,
      field_take hmiddle]
  · rw [List.append_assoc, field_skip hfront.le, hfront, Nat.sub_self, field_take hafter]

/-! ## Directory records -/

namespace DirectoryRecord

variable {r : DirectoryRecord} {bs : Bytes}

/-- **A written directory record is read back** with the length of its name, and with neither extra
field nor comment. -/
theorem parse_encode (hm : r.method.HasCode) {name : Bytes} (hname : name.length < 2 ^ 16)
    (rest : Bytes) : parse (r.encode name ++ rest) = .ok (r.named name) ∧
      (r.named name).nameLength.toNat = name.length := by
  rw [encode, List.append_assoc]
  exact ⟨parse_fixedPart hm.ofCode_code name _, UInt16.toNat_ofNat_of_lt' hname⟩

/-- The lengths of name, extra field and comment, as they stand in a record. -/
def lengthBytes (name extra comment : UInt16) : Bytes := le16 name ++ le16 extra ++ le16 comment

theorem length_lengthBytes (name extra comment : UInt16) :
    (lengthBytes name extra comment).length = 6 := by
  simp only [lengthBytes, List.length_append, length_le16]

theorem fixedPart_parts (r : DirectoryRecord) : ∃ front back : Bytes, front.length = 16 ∧
    back.length = 12 ∧
    r.fixedBytes = front ++ r.descriptor.encode ++
      lengthBytes r.nameLength r.extraLength r.commentLength ++ back ∧
    ∀ n, r.fixedPart n = front ++ r.descriptor.encode ++ lengthBytes (.ofNat n) 0 0 ++ back := by
  refine ⟨le32 signature ++ le16 r.versionMadeBy ++ le16 r.versionNeeded ++ le16 r.flags ++
    le16 r.method.code ++ le16 r.time ++ le16 r.date,
    le16 r.diskNumberStart ++ le16 r.internalAttributes ++ le32 r.attributes ++
      le32 r.headerOffset, ?_, ?_, ?_, fun n => ?_⟩
  · simp only [List.length_append, length_le16, length_le32]
  · simp only [List.length_append, length_le16, length_le32]
  · simp only [fixedBytes, lengthBytes, List.append_assoc]
  · simp only [fixedPart, lengthBytes, List.append_assoc]

theorem field_descriptor (r : DirectoryRecord) (name : Bytes) :
    (r.encode name).field 16 12 = r.descriptor.encode := by
  obtain ⟨front, back, hfront, -, -, hwritten⟩ := r.fixedPart_parts
  rw [encode, hwritten, List.append_assoc _ back]
  exact (fields_of_parts hfront r.descriptor.length_encode (length_lengthBytes ..) _).2.1

/-- **A directory record that is read** is written as it stood, but for the three lengths. -/
theorem encode_of_parse (h : parse bs = .ok r) (name : Bytes) : 46 ≤ bs.length ∧
    (r.encode name).field 0 28 = bs.field 0 28 ∧ (r.encode name).field 34 12 = bs.field 34 12 := by
  have hfixed := fixedBytes_of_parse h
  have hlen : 46 ≤ bs.length := by
    have hl := congrArg List.length hfixed
    rw [length_fixedBytes, List.length_take] at hl
    omega
  obtain ⟨front, back, hfront, hback, hstood, hwritten⟩ := r.fixedPart_parts
  have hbefore : (front ++ r.descriptor.encode).length = 28 := by
    rw [List.length_append, hfront, Descriptor.length_encode]
  have hparts := fun lengths tail (hlengths : List.length lengths = 6) =>
    fields_of_parts hbefore hlengths hback tail
  obtain ⟨h₁, -, h₂⟩ := hparts _ (bs.drop 46)
    (length_lengthBytes r.nameLength r.extraLength r.commentLength)
  obtain ⟨h₁', -, h₂'⟩ := hparts _ name (length_lengthBytes (.ofNat name.length) 0 0)
  rw [← hstood, hfixed, List.take_append_drop] at h₁ h₂
  rw [← hwritten] at h₁' h₂'
  exact ⟨hlen, h₁'.trans h₁.symm, h₂'.trans h₂.symm⟩

end DirectoryRecord

/-! ## Local headers -/

namespace LocalHeader

variable {h : LocalHeader} {bs : Bytes}

/-- The local header with a name and an extra field that are written instead of the ones it had. -/
def named (h : LocalHeader) (name extra : Bytes) : LocalHeader :=
  { h with nameLength := .ofNat name.length, extraLength := .ofNat extra.length }

/-- **A written local header is read back** with the lengths of its name and its extra field. -/
theorem parse_encode (hm : h.method.HasCode) {name extra : Bytes} (hname : name.length < 2 ^ 16)
    (hextra : extra.length < 2 ^ 16) (rest : Bytes) :
    parse (h.encode name extra ++ rest) = .ok (some (h.named name extra)) ∧
      (h.named name extra).nameLength.toNat = name.length ∧
      (h.named name extra).extraLength.toNat = extra.length := by
  rw [encode, List.append_assoc, List.append_assoc]
  exact ⟨parse_fixedPart hm.ofCode_code _ _ _, UInt16.toNat_ofNat_of_lt' hname,
    UInt16.toNat_ofNat_of_lt' hextra⟩

theorem fixedPart_parts (h : LocalHeader) : ∃ front : Bytes, front.length = 14 ∧
    ∀ n m, h.fixedPart n m =
      front ++ h.descriptor.encode ++ (le16 (.ofNat n) ++ le16 (.ofNat m)) := by
  refine ⟨le32 signature ++ le16 h.versionNeeded ++ le16 h.flags ++ le16 h.method.code ++
    le16 h.time ++ le16 h.date, ?_, fun n m => ?_⟩
  · simp only [List.length_append, length_le16, length_le32]
  · simp only [fixedPart, List.append_assoc]

theorem field_descriptor (h : LocalHeader) (name extra : Bytes) :
    (h.encode name extra).field 14 12 = h.descriptor.encode := by
  obtain ⟨front, hfront, hwritten⟩ := h.fixedPart_parts
  rw [encode, hwritten, List.append_assoc _ name]
  exact (fields_of_parts hfront h.descriptor.length_encode rfl _).2.1

/-- **A local header that is read** is written as it stood. -/
theorem fixedPart_of_parse (hp : parse bs = .ok (some h)) :
    h.fixedPart h.nameLength.toNat h.extraLength.toNat = bs.take 30 := by
  unfold parse at hp
  split_ifs at hp with hfour hsig hlen
  · cases hp
  · obtain rfl := Option.some.inj (Except.ok.inj hp)
    have hlen : 30 ≤ bs.length := not_lt.mp hlen
    rw [not_not] at hsig
    have hhalf : ∀ n, n + 2 ≤ 30 → le16 (u16At bs n) = bs.field n 2 := fun n hn =>
      le16_u16At (by omega)
    have hsignature : le32 (u32At bs 0) = bs.field 0 4 := le32_u32At (by omega)
    have hwords : (Descriptor.readAt bs 14).encode = bs.field 14 12 :=
      Descriptor.encode_readAt (by omega)
    simp only [fixedPart, Method.code_ofCode, ← hsig, UInt16.ofNat_toNat, hhalf, hsignature,
      hwords, field_zero_append, Nat.reduceAdd, Nat.reduceLeDiff]
    rfl

/-- **A local header that is read** is written as it stood, but for the two lengths. -/
theorem encode_of_parse (hp : parse bs = .ok (some h)) (name extra : Bytes) :
    30 ≤ bs.length ∧ (h.encode name extra).field 0 26 = bs.field 0 26 := by
  have hfixed := fixedPart_of_parse hp
  have hlen : 30 ≤ bs.length := by
    have hl := congrArg List.length hfixed
    rw [length_fixedPart, List.length_take] at hl
    omega
  obtain ⟨front, hfront, hwritten⟩ := h.fixedPart_parts
  have hbefore : (front ++ h.descriptor.encode).length = 26 := by
    rw [List.length_append, hfront, Descriptor.length_encode]
  have hstood : Bytes.field bs 0 26 = front ++ h.descriptor.encode := by
    rw [← List.take_append_drop 30 bs, ← hfixed, hwritten, List.append_assoc, field_take hbefore]
  rw [encode, hwritten, List.append_assoc, List.append_assoc, field_take hbefore, hstood]
  exact ⟨hlen, rfl⟩

end LocalHeader

end PakIndex
