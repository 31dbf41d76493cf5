import PakIndex.Proofs.Name.Fold
import Mathlib.Tactic

/-!
# Names that are texts

* `Bytes.IsUtf8`: a byte string is a text in UTF-8.
* `utf8EncodeChar_normalizeChar`, **`utf8_normalizePath`**: normalizing a path and normalizing its
  bytes are one.
* `Bytes.isUtf8_append_cons`, **`Bytes.isUtf8_iff_segments`**: a byte string is UTF-8 if all its
  segments are, since no byte of a longer character is a separator.
* `querySegments_eq`: a path asks for the segments of its normalized bytes.
-/

namespace PakIndex

/-- Whether a byte string is a text in UTF-8. -/
def Bytes.IsUtf8 (bs : Bytes) : Prop := bs.toByteArray.IsValidUTF8

instance (bs : Bytes) : Decidable bs.IsUtf8 := by unfold Bytes.IsUtf8; infer_instance

variable {c : Char} {b : UInt8} {bs xs ys : Bytes}

/-! ## The bytes of a text -/

theorem utf8_eq (s : String) : utf8 s = s.toList.flatMap String.utf8EncodeChar := by
  rw [utf8, ← String.utf8Encode_toList, List.utf8Encode, List.data_toByteArray]

theorem Bytes.isUtf8_iff_chars :
    bs.IsUtf8 ↔ ∃ l : List Char, l.flatMap String.utf8EncodeChar = bs := by
  constructor
  · rintro ⟨l, hl⟩
    exact ⟨l, (List.toByteArray_inj.mp hl).symm⟩
  · rintro ⟨l, rfl⟩
    exact ⟨l, rfl⟩

theorem Bytes.isUtf8_utf8 (s : String) : IsUtf8 (utf8 s) :=
  isUtf8_iff_chars.mpr ⟨s.toList, (utf8_eq s).symm⟩

theorem utf8_lossyText (h : bs.IsUtf8) : utf8 (lossyText bs) = bs := by
  have hs : String.fromUTF8? bs.toByteArray = some (String.fromUTF8 bs.toByteArray h) := dif_pos h
  rw [lossyText, hs]
  show bs.toByteArray.data.toList = bs
  rw [List.data_toByteArray]

/-! ## ASCII and other characters -/

theorem utf8EncodeChar_of_ascii (h : c.toNat < 0x80) :
    String.utf8EncodeChar c = [UInt8.ofNat c.toNat] :=
  if_pos (Nat.le_of_lt_succ h)

theorem high_of_mem_utf8EncodeChar (h : 0x80 ≤ c.toNat) (hb : b ∈ String.utf8EncodeChar c) :
    0x80 ≤ b := by
  have hv : ¬ c.val.toNat ≤ 127 := by
    have : 0x80 ≤ c.val.toNat := h
    omega
  rw [UInt8.le_iff_toNat_le]
  rw [String.utf8EncodeChar] at hb
  simp only [if_neg hv] at hb
  -- Every byte is a marker of at least 128 and some bits of the code point.
  split_ifs at hb <;> simp only [List.mem_cons, List.not_mem_nil, or_false] at hb
  · rcases hb with rfl | rfl <;> rw [UInt8.toNat_ofNat'] <;> simp <;> omega
  · rcases hb with rfl | rfl | rfl <;> rw [UInt8.toNat_ofNat'] <;> simp <;> omega
  · rcases hb with rfl | rfl | rfl | rfl <;> rw [UInt8.toNat_ofNat'] <;> simp <;> omega

theorem utf8EncodeChar_of_mem_ascii (hb : b < 0x80) (h : b ∈ String.utf8EncodeChar c) :
    String.utf8EncodeChar c = [b] := by
  by_cases hc : c.toNat < 0x80
  · have heq := utf8EncodeChar_of_ascii hc
    rw [heq, List.mem_singleton] at h
    rw [heq, h]
  · have := high_of_mem_utf8EncodeChar (Nat.le_of_not_lt hc) h
    exact absurd hb (UInt8.not_lt.mpr this)

/-! ## Normalizing -/

theorem normalizeByte_of_high (h : 0x80 ≤ b) : normalizeByte b = b := by
  grind [normalizeByte, separator, altSeparator]

theorem lt_of_isSeparator (h : isSeparator b = true) : b < 0x80 := by
  grind [isSeparator, separator, altSeparator]

theorem forall_ascii {P : Char → Prop} (h : ∀ n : Fin 128, P (Char.ofNat n)) (c : Char)
    (hc : c.toNat < 0x80) : P c := by
  have hchar := h ⟨c.toNat, hc⟩
  rwa [Char.ofNat_toNat] at hchar

theorem utf8EncodeChar_normalizeChar (c : Char) :
    String.utf8EncodeChar (normalizeChar c) = normalizeName (String.utf8EncodeChar c) := by
  by_cases hc : c.toNat < 0x80
  · exact forall_ascii (P := fun c => String.utf8EncodeChar (normalizeChar c) =
      normalizeName (String.utf8EncodeChar c)) (by decide +kernel) c hc
  · -- Another character is neither a letter with two cases nor a separator, and no byte of it is.
    have hhigh := Nat.le_of_not_lt hc
    have hkept : normalizeChar c = c := by
      have hne : c ≠ '\\' := by
        rintro rfl
        exact hc (by decide)
      have hupper : ¬ (65 ≤ c.toNat ∧ c.toNat ≤ 90) := by omega
      rw [normalizeChar, if_neg hne]
      exact dif_neg hupper
    have hbytes : ∀ b ∈ String.utf8EncodeChar c, normalizeByte b = b := fun b hb =>
      normalizeByte_of_high (high_of_mem_utf8EncodeChar hhigh hb)
    rw [hkept, normalizeName, List.map_congr_left hbytes, List.map_id']

/-- **Normalizing a path and normalizing its bytes are one.** -/
theorem utf8_normalizePath (path : String) :
    utf8 (normalizePath path) = normalizeName (utf8 path) := by
  rw [utf8_eq, utf8_eq, normalizePath, String.toList_map, List.flatMap_map, normalizeName,
    List.map_flatMap]
  exact List.flatMap_congr fun c _ => utf8EncodeChar_normalizeChar c

theorem querySegments_eq (path : String) :
    querySegments path = segments (utf8 (normalizePath path)) := by
  rw [utf8_normalizePath, segments_normalizeName, querySegments]

theorem querySegments_congr {p q : String} (h : normalizePath p = normalizePath q) :
    querySegments p = querySegments q := by
  rw [querySegments_eq, querySegments_eq, h]

/-! ## Segments -/

namespace Bytes

theorem isUtf8_nil : IsUtf8 [] := isUtf8_utf8 ""

theorem IsUtf8.append (hx : xs.IsUtf8) (hy : ys.IsUtf8) : (xs ++ ys).IsUtf8 := by
  rw [IsUtf8, List.toByteArray_append]
  exact ByteArray.IsValidUTF8.append hx hy

theorem isUtf8_of_ascii (hb : b < 0x80) : IsUtf8 [b] := by
  have hn : b.toNat < 0x80 := UInt8.lt_iff_toNat_lt.mp hb
  have hchar : (Char.ofNat b.toNat).toNat = b.toNat := by
    rw [Char.ofNat, dif_pos (.inl (by omega))]
    rfl
  refine isUtf8_iff_chars.mpr ⟨[Char.ofNat b.toNat], ?_⟩
  rw [List.flatMap_singleton, utf8EncodeChar_of_ascii (hchar.trans_lt hn), hchar,
    UInt8.ofNat_toNat]

/-- **A text is cut in two at an ASCII byte**, which is no part of a longer character. -/
theorem isUtf8_append_cons (hb : b < 0x80) :
    (xs ++ b :: ys).IsUtf8 ↔ xs.IsUtf8 ∧ ys.IsUtf8 := by
  constructor
  · intro h
    obtain ⟨l, hl⟩ := isUtf8_iff_chars.mp h
    -- Along the characters up to the one that is the byte.
    induction l generalizing xs with
    | nil => cases xs <;> cases hl
    | cons c l ih =>
      rw [List.flatMap_cons] at hl
      have hrest : IsUtf8 (l.flatMap String.utf8EncodeChar) := isUtf8_iff_chars.mpr ⟨l, rfl⟩
      have hc : IsUtf8 (String.utf8EncodeChar c) :=
        isUtf8_iff_chars.mpr ⟨[c], List.flatMap_singleton _ _⟩
      rcases List.append_eq_append_iff.mp hl with ⟨tail, rfl, htail⟩ | ⟨tail, hchar, htail⟩
      · obtain ⟨hx, hy⟩ := ih (htail ▸ hrest) htail
        exact ⟨hc.append hx, hy⟩
      · cases tail with
        | nil =>
          rw [List.append_nil] at hchar
          have hsplit : IsUtf8 [] ∧ ys.IsUtf8 := ih (htail ▸ hrest) htail.symm
          exact ⟨hchar ▸ hc, hsplit.2⟩
        | cons b' tail =>
          cases htail
          have hmem : b ∈ String.utf8EncodeChar c := hchar ▸ List.mem_append_right _ (.head _)
          have hsingle := utf8EncodeChar_of_mem_ascii hb hmem
          rw [hchar, List.append_eq_singleton_iff] at hsingle
          obtain ⟨rfl, htail⟩ : xs = [] ∧ tail = [] := by simpa using hsingle
          rw [htail]
          exact ⟨isUtf8_nil, hrest⟩
  · rintro ⟨hx, hy⟩
    exact hx.append ((isUtf8_of_ascii hb).append hy)

theorem isUtf8_iff_segmentsAfter (bs run : Bytes) :
    IsUtf8 (run.reverse ++ bs) ↔ ∀ seg ∈ segmentsAfter run bs, seg.IsUtf8 := by
  have hrun : ∀ (run : Bytes) (rest : List Bytes), (∀ seg ∈ consRun run rest, seg.IsUtf8) ↔
      IsUtf8 run.reverse ∧ ∀ seg ∈ rest, seg.IsUtf8 := by
    intro run rest
    cases run with
    | nil => exact ⟨fun h => ⟨isUtf8_nil, h⟩, fun h => h.2⟩
    | cons x run => exact List.forall_mem_cons
  induction bs generalizing run with
  | nil =>
    rw [segmentsAfter, hrun, List.append_nil]
    exact (and_iff_left fun _ hseg => absurd hseg List.not_mem_nil).symm
  | cons b bs ih =>
    rw [segmentsAfter]
    split
    · rename_i hb
      rw [isUtf8_append_cons (lt_of_isSeparator hb), hrun]
      exact and_congr_right' (ih [])
    · have h := ih (b :: run)
      rwa [List.reverse_cons, List.append_assoc] at h

/-- **A byte string is a text if all its segments are.** -/
theorem isUtf8_iff_segments : bs.IsUtf8 ↔ ∀ seg ∈ segments bs, seg.IsUtf8 :=
  isUtf8_iff_segmentsAfter bs []

end Bytes

theorem isUtf8_of_mem_querySegments {path : String} {seg : Bytes} (h : seg ∈ querySegments path) :
    seg.IsUtf8 := by
  rw [querySegments_eq] at h
  exact Bytes.isUtf8_iff_segments.mp (Bytes.isUtf8_utf8 _) seg h

end PakIndex
