import PakIndex.Checksum.Crc32
import PakIndex.Proofs.Layout.Field
import Mathlib.Tactic

/-!
# The register of the checksum

* `Crc32.step_xor`, `Crc32.byteSteps_injective`: shifting the register is linear and loses nothing.
* **`Crc32.update_eq`**: the table does what eight shifts do.
* `crc32_eq_run`: so the checksum is the one of the reflected polynomial, bit by bit.
* **`Crc32.foldl_update_of_short`**: up to four bytes fit into the register before it is shifted.
* `Bytes.AlikeOutside`: byte strings that differ in one window at most.
* **`crc32_ne_of_alikeOutside`**: a change within four bytes in a row changes the checksum.
-/

namespace PakIndex

namespace Crc32

/-! ## Shifts -/

theorem and_one_eq_one_iff (c : UInt32) : c &&& 1 = 1 ↔ c.toNat % 2 = 1 := by
  rw [← UInt32.toNat_inj, UInt32.toNat_and, UInt32.toNat_one, Nat.and_one_is_mod]

theorem step_of_odd {c : UInt32} (h : c.toNat % 2 = 1) : step c = c >>> 1 ^^^ polynomial :=
  if_pos ((and_one_eq_one_iff c).2 h)

theorem step_of_even {c : UInt32} (h : c.toNat % 2 = 0) : step c = c >>> 1 :=
  if_neg fun hodd => by have := (and_one_eq_one_iff c).1 hodd; omega

theorem toNat_shiftRight_one (c : UInt32) : (c >>> 1).toNat = c.toNat / 2 :=
  UInt32.toNat_shiftRight c 1

theorem step_xor (a b : UInt32) : step (a ^^^ b) = step a ^^^ step b := by
  have hsum := Nat.xor_mod_two_eq_one (a := a.toNat) (b := b.toNat)
  rw [← UInt32.toNat_xor] at hsum
  rcases Nat.mod_two_eq_zero_or_one a.toNat with ha | ha <;>
    rcases Nat.mod_two_eq_zero_or_one b.toNat with hb | hb
  · have hab : (a ^^^ b).toNat % 2 = 0 := by omega
    rw [step_of_even ha, step_of_even hb, step_of_even hab, UInt32.shiftRight_xor]
  · have hab : (a ^^^ b).toNat % 2 = 1 := by omega
    rw [step_of_even ha, step_of_odd hb, step_of_odd hab, UInt32.shiftRight_xor, UInt32.xor_assoc]
  · have hab : (a ^^^ b).toNat % 2 = 1 := by omega
    rw [step_of_odd ha, step_of_even hb, step_of_odd hab, UInt32.shiftRight_xor, UInt32.xor_assoc,
      UInt32.xor_comm (b >>> 1), UInt32.xor_assoc]
  · have hab : (a ^^^ b).toNat % 2 = 0 := by omega
    rw [step_of_odd ha, step_of_odd hb, step_of_even hab, UInt32.shiftRight_xor, UInt32.xor_assoc,
      UInt32.xor_comm (b >>> 1), ← UInt32.xor_assoc polynomial, UInt32.xor_self, UInt32.zero_xor]

theorem step_ofNat_double {n : Nat} (hn : n < 2 ^ 31) : step (.ofNat (2 * n)) = .ofNat n := by
  have hdouble : (UInt32.ofNat (2 * n)).toNat = 2 * n :=
    UInt32.toNat_ofNat_of_lt' (show 2 * n < 2 ^ 32 by omega)
  rw [step_of_even (by omega), ← UInt32.toNat_inj, toNat_shiftRight_one, hdouble,
    UInt32.toNat_ofNat_of_lt' (show n < 2 ^ 32 by omega)]
  omega

/-- A shift loses nothing: whether the polynomial was added shows at the highest bit, which no
shifted number has and the polynomial does. -/
theorem step_injective : Function.Injective step := by
  intro a b hab
  rw [← UInt32.xor_eq_zero_iff, ← step_xor] at hab
  rw [← UInt32.xor_eq_zero_iff]
  generalize a ^^^ b = c at hab
  have hshift := toNat_shiftRight_one c
  rcases Nat.mod_two_eq_zero_or_one c.toNat with heven | hodd
  · rw [step_of_even heven] at hab
    rw [hab, UInt32.toNat_zero] at hshift
    have hzero : c.toNat = (0 : UInt32).toNat := by rw [UInt32.toNat_zero]; omega
    exact UInt32.toNat_inj.1 hzero
  · rw [step_of_odd hodd, UInt32.xor_eq_zero_iff] at hab
    have hhigh : polynomial.toNat = 0xEDB88320 := rfl
    have hlt := c.toNat_lt
    rw [hab, hhigh] at hshift
    omega

theorem byteSteps_injective : Function.Injective byteSteps :=
  (step_injective.iterate 8 : Function.Injective step^[8])

theorem byteSteps_xor (a b : UInt32) : byteSteps (a ^^^ b) = byteSteps a ^^^ byteSteps b := by
  simp only [byteSteps, step_xor]

theorem byteSteps_ofNat_mul {n : Nat} (hn : n < 2 ^ 24) :
    byteSteps (.ofNat (256 * n)) = .ofNat n := by
  have height : 256 * n = 2 * (2 * (2 * (2 * (2 * (2 * (2 * (2 * n))))))) := by omega
  rw [byteSteps, height]
  repeat rw [step_ofNat_double (by omega)]

/-! ## The table -/

theorem xor_low_byte {q r : Nat} (hr : r < 256) : 256 * q ^^^ r = 256 * q + r := by
  have hdiv : (256 * q ^^^ r) / 2 ^ 8 = q := by
    rw [Nat.xor_div_two_pow, Nat.mul_div_cancel_left q (by decide),
      Nat.div_eq_of_lt (show r < 2 ^ 8 from hr), Nat.xor_zero]
  have hmod : (256 * q ^^^ r) % 2 ^ 8 = r := by
    rw [Nat.xor_mod_two_pow, Nat.mul_mod_right, Nat.mod_eq_of_lt (show r < 2 ^ 8 from hr),
      Nat.zero_xor]
  omega

theorem ofNat_add_low_byte (q : Nat) (b : UInt8) :
    UInt32.ofNat (b.toNat + 256 * q) = b.toUInt32 ^^^ .ofNat (256 * q) := by
  have hb : b.toUInt32 = .ofNat b.toNat := by rw [← UInt8.toNat_toUInt32, UInt32.ofNat_toNat]
  rw [hb, ← UInt32.ofNat_xor, Nat.xor_comm, xor_low_byte b.toNat_lt, Nat.add_comm]

theorem byteSteps_eq (c : UInt32) : byteSteps c = byteSteps c.toUInt8.toUInt32 ^^^ (c >>> 8) := by
  have hlt := c.toNat_lt
  have hlow : c.toUInt8.toNat = c.toNat % 256 := UInt32.toNat_toUInt8 c
  have hsplit : c = c.toUInt8.toUInt32 ^^^ .ofNat (256 * (c.toNat / 256)) := by
    rw [← ofNat_add_low_byte, hlow, Nat.mod_add_div, UInt32.ofNat_toNat]
  have hshift : c >>> 8 = .ofNat (c.toNat / 256) := by
    have hdown : (c >>> 8).toNat = c.toNat / 2 ^ 8 := by
      rw [← Nat.shiftRight_eq_div_pow]
      exact UInt32.toNat_shiftRight c 8
    rw [← UInt32.ofNat_toNat (x := c >>> 8), hdown]
    rfl
  rw [hshift, ← byteSteps_ofNat_mul (n := c.toNat / 256) (by omega), ← byteSteps_xor, ← hsplit]

/-- **The table does what eight shifts do.** -/
theorem update_eq (c : UInt32) (b : UInt8) : update c b = byteSteps (c ^^^ b.toUInt32) := by
  have hentry : table.get ⟨(c.toUInt8 ^^^ b).toNat, UInt8.toNat_lt _⟩ =
      byteSteps (c.toUInt8 ^^^ b).toUInt32 := by
    rw [← UInt32.ofNat_toNat (x := (c.toUInt8 ^^^ b).toUInt32), UInt8.toNat_toUInt32]
    exact Vector.getElem_ofFn _
  rw [update, hentry, UInt8.toUInt32_xor, byteSteps_xor, byteSteps_xor, byteSteps_eq c]
  rw [UInt32.xor_assoc, UInt32.xor_comm (byteSteps b.toUInt32), ← UInt32.xor_assoc]

theorem update_injective (b : UInt8) : Function.Injective fun c => update c b := by
  intro c d hcd
  simp only [update_eq] at hcd
  exact (UInt32.xor_left_inj _).1 (byteSteps_injective hcd)

theorem foldl_update_injective (bs : Bytes) : Function.Injective fun c => bs.foldl update c := by
  induction bs with
  | nil => exact fun _ _ h => h
  | cons b bs ih => exact ih.comp (update_injective b)

/-! ## Up to four bytes -/

/-- **Up to four bytes fit into the register** before it is shifted. -/
theorem foldl_update_of_short {bs : Bytes} (hlen : bs.length ≤ 4) (c : UInt32) :
    bs.foldl update c = byteSteps^[bs.length] (c ^^^ .ofNat (ofLittleEndian bs)) := by
  induction bs generalizing c with
  | nil => exact (UInt32.xor_zero).symm
  | cons b bs ih =>
    have hshort : bs.length ≤ 3 := Nat.le_of_succ_le_succ hlen
    have hlt : ofLittleEndian bs < 2 ^ 24 :=
      (ofLittleEndian_lt bs).trans_le (Nat.pow_le_pow_right (by decide) hshort : _ ≤ 256 ^ 3)
    -- what comes after `b` may go into the register with it, eight bits further up
    rw [List.foldl_cons, ih (by omega), List.length_cons, Function.iterate_succ_apply, update_eq,
      ← byteSteps_ofNat_mul hlt, ← byteSteps_xor, ofLittleEndian, ofNat_add_low_byte,
      UInt32.xor_assoc]

theorem foldl_update_inj {bs cs : Bytes} (hlen : bs.length ≤ 4) (hsame : cs.length = bs.length)
    {c : UInt32} (h : bs.foldl update c = cs.foldl update c) : bs = cs := by
  have hlt : ofLittleEndian bs < 2 ^ 32 :=
    (ofLittleEndian_lt bs).trans_le (Nat.pow_le_pow_right (by decide) hlen : _ ≤ 256 ^ 4)
  have hlt' : ofLittleEndian cs < 2 ^ 32 :=
    (ofLittleEndian_lt cs).trans_le
      (Nat.pow_le_pow_right (by decide) (hsame.trans_le hlen) : _ ≤ 256 ^ 4)
  rw [foldl_update_of_short hlen, foldl_update_of_short (hsame.trans_le hlen), hsame] at h
  have hnum := (UInt32.xor_right_inj _).1 (byteSteps_injective.iterate _ h)
  rw [← UInt32.toNat_inj, UInt32.toNat_ofNat_of_lt' hlt, UInt32.toNat_ofNat_of_lt' hlt'] at hnum
  rw [← littleEndian_ofLittleEndian bs, ← littleEndian_ofLittleEndian cs, hnum, hsame]

/-! ## Working out a checksum -/

/-- The register after some bytes, without the table. The register after a byte is known as a number
before the next byte is taken. -/
def run : Bytes → Nat → Nat
  | [], c => c
  | b :: bs, c =>
    match (byteSteps (.ofNat c ^^^ b.toUInt32)).toNat with
    | 0 => run bs 0
    | n + 1 => run bs (n + 1)

theorem ofNat_run (bs : Bytes) (c : UInt32) : .ofNat (run bs c.toNat) = bs.foldl update c := by
  induction bs generalizing c with
  | nil => exact UInt32.ofNat_toNat
  | cons b bs ih =>
    have hrun : run (b :: bs) c.toNat = run bs (byteSteps (c ^^^ b.toUInt32)).toNat := by
      rw [run, UInt32.ofNat_toNat]
      rcases (byteSteps (c ^^^ b.toUInt32)).toNat <;> rfl
    rw [hrun, ih, List.foldl_cons, update_eq]

end Crc32

/-- The checksum without the table: the one of the reflected polynomial, bit by bit. -/
theorem crc32_eq_run (bs : Bytes) : crc32 bs = ~~~ .ofNat (Crc32.run bs 0xFFFFFFFF) :=
  congrArg (~~~ ·) (Crc32.ofNat_run bs 0xFFFFFFFF).symm

/-- The checksum of the digits from 1 to 9 by which implementations are compared. -/
example : crc32 [0x31, 0x32, 0x33, 0x34, 0x35, 0x36, 0x37, 0x38, 0x39] = 0xCBF43926 := by
  rw [crc32_eq_run]
  decide +kernel

/-! ## Changes in a window -/

/-- Byte strings of one length that differ at most within the `width` bytes from `start` on. -/
structure Bytes.AlikeOutside (start width : Nat) (a b : Bytes) : Prop where
  length : b.length = a.length
  outside : ∀ k, k < start ∨ start + width ≤ k → b[k]? = a[k]?

namespace Bytes.AlikeOutside

variable {a b : Bytes} {start width : Nat}

theorem take (h : AlikeOutside start width a b) : b.take start = a.take start := by
  apply List.ext_getElem?
  intro k
  rw [List.getElem?_take, List.getElem?_take]
  split_ifs with hk
  · exact h.outside k (.inl hk)
  · rfl

theorem drop (h : AlikeOutside start width a b) :
    b.drop (start + width) = a.drop (start + width) := by
  apply List.ext_getElem?
  intro k
  rw [List.getElem?_drop, List.getElem?_drop]
  exact h.outside _ (.inr (Nat.le_add_right ..))

theorem split (bs : Bytes) (start width : Nat) :
    bs.take start ++ (bs.field start width ++ bs.drop (start + width)) = bs := by
  rw [Bytes.field, ← List.drop_drop, List.take_append_drop, List.take_append_drop]

theorem length_field (h : AlikeOutside start width a b) :
    (b.field start width).length = (a.field start width).length := by
  simp only [Bytes.field, List.length_take, List.length_drop, h.length]

theorem eq_of_field_eq (h : AlikeOutside start width a b)
    (hfield : a.field start width = b.field start width) : a = b := by
  rw [← split a start width, ← split b start width, h.take, h.drop, hfield]

end Bytes.AlikeOutside

/-- **A change within four bytes in a row changes the checksum.** -/
theorem crc32_ne_of_alikeOutside {a b : Bytes} {start width : Nat} (hwidth : width ≤ 4)
    (h : a.AlikeOutside start width b) (hne : b ≠ a) : crc32 b ≠ crc32 a := by
  intro hcrc
  have hregister : a.foldl Crc32.update 0xFFFFFFFF = b.foldl Crc32.update 0xFFFFFFFF :=
    (UInt32.not_inj.1 hcrc).symm
  rw [← Bytes.AlikeOutside.split a start width, ← Bytes.AlikeOutside.split b start width, h.take,
    h.drop, List.foldl_append, List.foldl_append, List.foldl_append, List.foldl_append] at hregister
  -- the bytes behind the window lose nothing, so the registers are one right behind it
  have hwindow := Crc32.foldl_update_injective _ hregister
  have hshort : (a.field start width).length ≤ 4 := (List.length_take_le ..).trans hwidth
  exact hne (h.eq_of_field_eq (Crc32.foldl_update_inj hshort h.length_field hwindow)).symm

end PakIndex
