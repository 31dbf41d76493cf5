import PakIndex.Layout.ExtraField
import PakIndex.Proofs.Layout.Field
import PakIndex.Proofs.Steps

/-!
# Extra fields as sequences of blocks

* `ExtraBlock.ConsistsOf`: an extra field that is blocks, one after the other, whose size fields
  have room for their sizes.
* `ExtraBlock.parseAll_encode_append`, `ExtraBlock.parseAll_encodeAll_append`: written blocks are
  read back, whatever follows them.
* **`ExtraBlock.parseAll_eq_ok_iff`**: an extra field is read as the blocks that it consists of.
-/

namespace PakIndex.ExtraBlock

open Bytes

variable {b : ExtraBlock} {bs : Bytes} {blocks : List ExtraBlock}

/-- Whether the size field of a block has room for the size of its data. -/
def Fits (b : ExtraBlock) : Prop := b.data.length < 2 ^ 16

/-- Whether an extra field is blocks, one after the other. -/
def ConsistsOf (bs : Bytes) (blocks : List ExtraBlock) : Prop :=
  bs = encodeAll blocks ∧ ∀ b ∈ blocks, b.Fits

/-- **A written block is read back**, whatever follows it. -/
theorem parseAll_encode_append (hb : b.Fits) (rest : Bytes) :
    parseAll (b.encode ++ rest) = (parseAll rest).map (b :: ·) := by
  have hid : u16At (le16 b.id) 0 = b.id := by
    rw [← List.append_nil (le16 b.id), u16At_le16]
  have hsize : (u16At (le16 (.ofNat b.data.length)) 0).toNat = b.data.length := by
    rw [← List.append_nil (le16 _), u16At_le16, UInt16.toNat_ofNat_of_lt' hb]
  rw [encode, List.append_assoc, List.append_assoc]
  unfold le16 littleEndian littleEndian littleEndian at hid hsize ⊢
  simp only [List.cons_append, List.nil_append]
  rw [parseAll]
  simp only [hid, hsize, List.take_left, List.drop_left, lt_irrefl, if_false]
  cases parseAll rest <;> rfl

theorem parseAll_nil : parseAll [] = .ok [] := by
  rw [parseAll]

/-- **Written blocks are read back**, and what follows them decides. -/
theorem parseAll_encodeAll_append (hfits : ∀ b ∈ blocks, b.Fits) (rest : Bytes) :
    parseAll (encodeAll blocks ++ rest) = (parseAll rest).map (blocks ++ ·) := by
  induction blocks with
  | nil => exact (Except.map_id ▸ rfl)
  | cons b blocks ih =>
    obtain ⟨hb, hfits⟩ := List.forall_mem_cons.mp hfits
    rw [encodeAll, List.map_cons, List.flatten_cons, List.append_assoc, parseAll_encode_append hb,
      ← encodeAll, ih hfits, map_map]
    rfl

theorem le16_u16At_pair (x y : UInt8) : le16 (u16At [x, y] 0) = [x, y] :=
  le16_u16At (le_refl 2)

/-- **Which extra fields are read as which blocks.** -/
theorem parseAll_eq_ok_iff : parseAll bs = .ok blocks ↔ ConsistsOf bs blocks := by
  constructor
  · intro h
    fun_induction parseAll bs generalizing blocks with
    | case1 =>
      cases h
      exact ⟨rfl, nofun⟩
    | case2 => cases h
    | case3 => cases h
    | case4 i₀ i₁ s₀ s₁ rest id size data hlen blocks' hrest =>
      rename_i ih
      cases h
      obtain ⟨hdrop, hfits⟩ := ih hrest
      have hdata : data.length = size := by
        have : data.length ≤ size := List.length_take_le _ _
        omega
      have hback : UInt16.ofNat data.length = u16At [s₀, s₁] 0 := by
        rw [hdata, UInt16.ofNat_toNat]
      refine ⟨?_, List.forall_mem_cons.mpr ⟨hdata.trans_lt (UInt16.toNat_lt _), hfits⟩⟩
      rw [encodeAll, List.map_cons, List.flatten_cons, ← encodeAll, ← hdrop, encode, hback,
        le16_u16At_pair, le16_u16At_pair, List.append_assoc, List.take_append_drop]
      rfl
    | case5 => cases h
  · rintro ⟨rfl, hfits⟩
    have h := parseAll_encodeAll_append hfits []
    rwa [List.append_nil, parseAll_nil, Except.map, List.append_nil] at h

theorem parseAll_error_eq {e : Error} (h : parseAll bs = .error e) :
    ∃ fault, e = .directoryCorrupt fault := by
  fun_induction parseAll bs with
  | case1 => cases h
  | case2 => exact ⟨_, (Except.error.inj h).symm⟩
  | case3 i₀ i₁ s₀ s₁ rest size data hlen e' he ih =>
    cases h
    exact ih he
  | case4 => cases h
  | case5 => exact ⟨_, (Except.error.inj h).symm⟩

theorem parseAll_error {e : Error} (h : parseAll bs = .error e) :
    e.class = .structural := by
  obtain ⟨fault, rfl⟩ := parseAll_error_eq h
  rfl

end PakIndex.ExtraBlock
