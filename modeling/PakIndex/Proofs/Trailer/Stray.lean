import PakIndex.Proofs.Index.Written

/-!
# Signatures inside a trailer

The search for the trailer goes backwards, so that it meets the numbers of a trailer before its
signature if there is a comment behind them.

* `Trailer.numbers`, `Trailer.Spells`: the numbers of a trailer, and whether they spell a signature.
* `Trailer.AbsentFrom`: no trailer stands in a comment.
* **`Trailer.OneVolume.hidden_iff`**: behind the start of a trailer only its numbers can spell a
  signature, and only if an encryption header follows.
-/

namespace PakIndex.Trailer

open Bytes

variable {t : Trailer} {comment : Bytes} {k : Nat}

/-- The bytes of a trailer for the number of entries and for size and offset of the directory. -/
def numbers (t : Trailer) : Bytes :=
  le16 t.entriesTotal ++ le32 t.directorySize ++ le32 t.directoryOffset

/-- Whether a signature starts in the number of entries or in the size of the directory. -/
def Spells (t : Trailer) : Prop := ∃ k < 6, t.numbers.field k 4 = signature

instance (t : Trailer) : Decidable t.Spells := by unfold Spells; infer_instance

/-- Whether no signature stands in a comment with room for a trailer. -/
def AbsentFrom (comment : Bytes) : Prop :=
  ∀ k, k + fixedSize ≤ comment.length → comment.field k 4 ≠ signature

theorem absentFrom_of_short (h : comment.length < fixedSize) : AbsentFrom comment :=
  fun k hk => by omega

/-! ## Where a signature could start -/

theorem length_numbers (t : Trailer) : t.numbers.length = 10 := by
  simp only [numbers, List.length_append, length_le16, length_le32]

theorem encode_eq (t : Trailer) : t.encode =
    (signature ++ le16 t.disk ++ le16 t.directoryStartDisk ++ le16 t.entriesOnDisk) ++
      (t.numbers ++ le16 t.commentLength) := by
  simp only [encode, numbers, List.append_assoc]

theorem field_numbers (t : Trailer) (comment : Bytes) (hk : k ≤ 6) :
    (t.encode ++ comment).field (10 + k) 4 = t.numbers.field k 4 := by
  have hlen : (signature ++ le16 t.disk ++ le16 t.directoryStartDisk ++
      le16 t.entriesOnDisk).length = 10 := by
    simp only [List.length_append, length_signature, length_le16]
  rw [encode_eq, List.append_assoc, field_skip (by omega), hlen, Nat.add_sub_cancel_left,
    List.append_assoc, field_keep (by rw [length_numbers]; omega)]

theorem le32_eq_signature_iff {x : UInt32} : le32 x = signature ↔ x = 0x06054B50 := by
  constructor
  · intro h
    rw [← ofNat_le32 x, h]
    decide
  · rintro rfl
    decide

/-- The offset of the directory is the only number at which a whole signature may stand. -/
theorem field_directoryOffset (t : Trailer) (comment : Bytes) :
    (t.encode ++ comment).field 16 4 = signature ↔ t.directoryOffset = 0x06054B50 := by
  have hlen : (le16 t.entriesTotal ++ le32 t.directorySize).length = 6 := by
    simp only [List.length_append, length_le16, length_le32]
  have hfield : t.numbers.field 6 4 = le32 t.directoryOffset := by
    rw [numbers, field_skip hlen.le, hlen, ← List.append_nil (le32 t.directoryOffset)]
    exact field_take (length_le32 _)
  rw [← le32_eq_signature_iff, ← hfield, ← field_numbers t comment le_rfl]

theorem getElem?_commentLength (t : Trailer) (comment : Bytes) {i : Nat} (hi : i < 2) :
    (t.encode ++ comment)[20 + i]? = (le16 t.commentLength)[i]? := by
  have hlen : (signature ++ le16 t.disk ++ le16 t.directoryStartDisk ++ le16 t.entriesOnDisk ++
      t.numbers).length = 20 := by
    simp only [List.length_append, length_signature, length_le16, length_numbers]
  have hbytes : t.encode ++ comment = (signature ++ le16 t.disk ++ le16 t.directoryStartDisk ++
      le16 t.entriesOnDisk ++ t.numbers) ++ (le16 t.commentLength ++ comment) := by
    simp only [encode_eq, List.append_assoc]
  rw [hbytes, List.getElem?_append_right (by omega), hlen, Nat.add_sub_cancel_left,
    List.getElem?_append_left (by rw [length_le16]; exact hi)]

theorem field_ne_signature_of_length (hlen : t.commentLength = 284) (hk : 17 ≤ k) (hk' : k ≤ 21) :
    (t.encode ++ comment).field k 4 ≠ signature := by
  intro heq
  have h₀ : (t.encode ++ comment)[20]? = some 28 := by
    rw [getElem?_commentLength t comment (i := 0) (by decide), hlen]
    decide
  have h₁ : (t.encode ++ comment)[21]? = some 1 := by
    rw [getElem?_commentLength t comment (i := 1) (by decide), hlen]
    decide
  have hfield : ∀ i < 4, (t.encode ++ comment)[k + i]? = signature[i]? := fun i hi => by
    rw [← heq, getElem?_field hi]
  interval_cases k
  · exact absurd (h₀.symm.trans (hfield 3 (by decide))) (by decide)
  · exact absurd (h₀.symm.trans (hfield 2 (by decide))) (by decide)
  · exact absurd (h₀.symm.trans (hfield 1 (by decide))) (by decide)
  · exact absurd (h₀.symm.trans (hfield 0 (by decide))) (by decide)
  · exact absurd (h₁.symm.trans (hfield 0 (by decide))) (by decide)

theorem field_comment (t : Trailer) (comment : Bytes) (hk : 22 ≤ k) :
    (t.encode ++ comment).field k 4 = comment.field (k - 22) 4 := by
  rw [field_skip (by rw [length_encode]; exact hk), length_encode]

/-! ## Hidden trailers -/

/-- **When a trailer is hidden.** A comment of at most eight bytes leaves no room for a signature
behind that of the trailer. In front of an encryption header one may start in the number of entries
or in the size of the directory, and nowhere else. -/
theorem OneVolume.hidden_iff (h : t.OneVolume) (hlen : t.commentLength.toNat = comment.length)
    (hshape : comment.length ≤ 8 ∨ comment.length = 284) (habsent : AbsentFrom comment)
    (hoffset : 16 ≤ comment.length → t.directoryOffset ≠ 0x06054B50) :
    (∃ k, 1 ≤ k ∧ k ≤ comment.length ∧ (t.encode ++ comment).field k 4 = signature) ↔
      comment.length = 284 ∧ t.Spells := by
  constructor
  · rintro ⟨k, hk, hk', heq⟩
    have hfar : ¬ k ≤ 9 := fun hnear => h.field_ne_signature comment hk hnear heq
    have hlong : comment.length = 284 := hshape.resolve_left (by omega)
    have hnumbers : k < 16 := by
      by_contra hlate
      obtain rfl | hmiddle | hcomment : k = 16 ∨ (17 ≤ k ∧ k ≤ 21) ∨ 22 ≤ k := by omega
      · exact hoffset (by omega) ((field_directoryOffset t comment).mp heq)
      · have hlength : t.commentLength = 284 := UInt16.toNat_inj.mp (hlen.trans hlong)
        exact field_ne_signature_of_length hlength hmiddle.1 hmiddle.2 heq
      · rw [field_comment t comment hcomment] at heq
        exact habsent (k - 22) (by rw [fixedSize]; omega) heq
    refine ⟨hlong, k - 10, by omega, ?_⟩
    rw [← field_numbers t comment (by omega), Nat.add_sub_of_le (by omega)]
    exact heq
  · rintro ⟨hlong, k, hk, hspells⟩
    refine ⟨10 + k, by omega, by omega, ?_⟩
    rw [field_numbers t comment (by omega), hspells]

end PakIndex.Trailer
