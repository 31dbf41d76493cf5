import PakIndex.Bits
import Mathlib.Tactic

/-!
# Which bits a reader looks at

* `BitSource.bits`: the bits that are left in a source.
* `BitSource.Takes`: a source loses bits and becomes another one.
* `BitSource.Local`: a relation of a source and what is left of it that is decided by the bits in
  between. Such relations compose (`Local.comp`), so that a reader made of local readers is local.
* `BitSource.local_number?`, `BitSource.local_align`, `BitSource.local_bytes`: the readers of a
  source are local.
-/

namespace PakIndex.BitSource

variable {s t u s' t' : BitSource} {xs ys : List Nat} {b : UInt8} {bs rest : Bytes}

/-! ## Bits -/

/-- The bits of a byte, the lowest first. -/
def byteBits (b : UInt8) : List Nat := (List.range 8).map fun i => (b.toNat >>> i) % 2

/-- The bits that are left. -/
def bits (s : BitSource) : List Nat := (s.bytes.flatMap byteBits).drop s.used

@[simp] theorem length_byteBits (b : UInt8) : (byteBits b).length = 8 := by simp [byteBits]

theorem byteBits_injective : Function.Injective byteBits := by
  intro b c h
  apply UInt8.toNat_inj.1
  apply Nat.eq_of_testBit_eq
  intro i
  by_cases hi : i < 8
  · have hbit := congrArg (·[i]?) h
    simp only [byteBits, List.getElem?_map, List.getElem?_range hi, Option.map_some,
      Option.some.injEq] at hbit
    simp only [Nat.testBit, Nat.one_and_eq_mod_two, hbit]
  · have hpow : 2 ^ 8 ≤ 2 ^ i := Nat.pow_le_pow_right (by decide) (by omega)
    rw [Nat.testBit_lt_two_pow (b.toNat_lt.trans_le hpow),
      Nat.testBit_lt_two_pow (c.toNat_lt.trans_le hpow)]

theorem bits_of_bit? {x : Nat} (hused : s.used < 8) (h : s.bit? = some (x, t)) :
    s.bits = x :: t.bits ∧ t.used < 8 := by
  obtain ⟨bytes, used⟩ := s
  change used < 8 at hused
  cases bytes with
  | nil => exact absurd h (by simp [bit?])
  | cons b rest =>
    simp only [bit?, Option.some.injEq, Prod.mk.injEq] at h
    obtain ⟨rfl, rfl⟩ := h
    have hlt : used < ((b :: rest).flatMap byteBits).length := by
      rw [List.flatMap_cons, List.length_append, length_byteBits]
      exact Nat.lt_add_right _ hused
    have hfirst : ((b :: rest).flatMap byteBits)[used] = (b.toNat >>> used) % 2 := by
      simp only [List.flatMap_cons]
      rw [List.getElem_append_left (by simpa using hused)]
      simp [byteBits]
    have hcons : (BitSource.mk (b :: rest) used).bits =
        (b.toNat >>> used) % 2 :: ((b :: rest).flatMap byteBits).drop (used + 1) := by
      rw [bits, List.drop_eq_getElem_cons hlt, hfirst]
    split_ifs with h7
    · refine ⟨?_, Nat.zero_lt_succ 7⟩
      rw [hcons, h7, List.flatMap_cons, List.drop_left' (length_byteBits b)]
      rfl
    · exact ⟨hcons, by show used + 1 < 8; omega⟩

theorem exists_bit? {x : Nat} (hused : s.used < 8) (h : s.bits = x :: xs) :
    ∃ t, s.bit? = some (x, t) := by
  obtain ⟨bytes, used⟩ := s
  cases bytes with
  | nil => exact absurd h (by simp [bits])
  | cons b rest =>
    obtain ⟨⟨y, t⟩, hbit⟩ : ∃ r, (BitSource.mk (b :: rest) used).bit? = some r := ⟨_, rfl⟩
    have hsame := (bits_of_bit? hused hbit).1
    rw [h, List.cons.injEq] at hsame
    exact ⟨t, hsame.1 ▸ hbit⟩

/-! ## Taking bits -/

/-- `s` becomes `t` when it loses some bits. -/
inductive Takes : BitSource → List Nat → BitSource → Prop
  | nil (s : BitSource) : Takes s [] s
  | cons {s t u : BitSource} {x : Nat} {xs : List Nat} :
      s.bit? = some (x, t) → Takes t xs u → Takes s (x :: xs) u

namespace Takes

theorem append (h : Takes s xs t) (h' : Takes t ys u) : Takes s (xs ++ ys) u := by
  induction h with
  | nil => exact h'
  | cons hbit _ ih => exact .cons hbit (ih h')

theorem of_append (h : Takes s (xs ++ ys) u) : ∃ t, Takes s xs t ∧ Takes t ys u := by
  induction xs generalizing s with
  | nil => exact ⟨s, .nil s, h⟩
  | cons x xs ih =>
    cases h with
    | cons hbit h =>
      obtain ⟨t, hxs, hys⟩ := ih h
      exact ⟨t, .cons hbit hxs, hys⟩

theorem unique (h : Takes s xs t) (h' : Takes s xs u) : t = u := by
  induction h with
  | nil => cases h'; rfl
  | cons hbit _ ih =>
    cases h' with
    | cons hbit' h' =>
      rw [hbit, Option.some.injEq, Prod.mk.injEq] at hbit'
      exact ih (hbit'.2 ▸ h')

theorem bits_eq (h : Takes s xs t) (hused : s.used < 8) :
    s.bits = xs ++ t.bits ∧ t.used < 8 := by
  induction h with
  | nil => exact ⟨rfl, hused⟩
  | cons hbit _ ih =>
    obtain ⟨hbits, hused⟩ := bits_of_bit? hused hbit
    obtain ⟨hrest, hlt⟩ := ih hused
    exact ⟨by rw [hbits, hrest, List.cons_append], hlt⟩

theorem exists_of_prefix (hused : s.used < 8) (h : xs <+: s.bits) : ∃ t, Takes s xs t := by
  induction xs generalizing s with
  | nil => exact ⟨s, .nil s⟩
  | cons x xs ih =>
    obtain ⟨ys, hys⟩ := h
    rw [List.cons_append] at hys
    obtain ⟨t, hbit⟩ := exists_bit? hused hys.symm
    obtain ⟨hbits, hlt⟩ := bits_of_bit? hused hbit
    rw [← hys, List.cons.injEq] at hbits
    obtain ⟨u, hu⟩ := ih hlt ⟨ys, hbits.2⟩
    exact ⟨u, .cons hbit hu⟩

theorem used_eq (h : Takes s xs t) (h' : Takes s' ys t') (hlen : ys.length = xs.length)
    (hused : s'.used = s.used) : t'.used = t.used := by
  induction h generalizing s' ys with
  | nil =>
    obtain rfl := List.eq_nil_of_length_eq_zero hlen
    cases h'
    exact hused
  | @cons s t _ _ _ hbit _ ih =>
    cases h' with
    | nil => exact absurd hlen (by simp)
    | @cons _ m _ _ _ hbit' h' =>
      refine ih h' (Nat.succ_inj.1 hlen) ?_
      unfold bit? at hbit hbit'
      split at hbit <;> simp only [reduceCtorEq, Option.some.injEq, Prod.mk.injEq] at hbit
      split at hbit' <;> simp only [reduceCtorEq, Option.some.injEq, Prod.mk.injEq] at hbit'
      rw [← hbit.2, ← hbit'.2, hused]
      split_ifs <;> rfl

end Takes

/-! ## Whole bytes -/

theorem takes_byte {used : Nat} (hused : used < 8) :
    Takes ⟨b :: rest, used⟩ ((byteBits b).drop used) ⟨rest, 0⟩ := by
  induction hn : 7 - used generalizing used with
  | zero =>
    obtain rfl : used = 7 := by omega
    exact .cons rfl (.nil _)
  | succ n ih =>
    rw [List.drop_eq_getElem_cons (by simpa using hused)]
    refine .cons ?_ (ih (by omega : used + 1 < 8) (by omega))
    simp only [bit?, if_neg (show used ≠ 7 by omega)]
    simp [byteBits]

theorem takes_bytes : Takes ⟨bs ++ rest, 0⟩ (bs.flatMap byteBits) ⟨rest, 0⟩ := by
  induction bs with
  | nil => exact .nil _
  | cons b bs ih => exact (takes_byte (by decide : 0 < 8)).append ih

theorem exists_of_takes_byte (hused : s.used < 8) (h : Takes s ((byteBits b).drop s.used) t) :
    ∃ c, s.bytes = c :: t.bytes ∧ t.used = 0 ∧
      (byteBits c).drop s.used = (byteBits b).drop s.used := by
  have hbits := (h.bits_eq hused).1
  obtain ⟨bytes, used⟩ := s
  change used < 8 at hused
  cases bytes with
  | nil =>
    have hlen := congrArg List.length hbits
    simp only [bits, List.flatMap_nil, List.drop_nil, List.length_nil, List.length_append,
      List.length_drop, length_byteBits] at hlen
    omega
  | cons c rest =>
    have htake : Takes ⟨c :: rest, used⟩ _ ⟨rest, 0⟩ := takes_byte hused
    have hsame := (htake.bits_eq hused).1
    rw [hbits] at hsame
    have hdrop := (List.append_inj_left hsame (by simp)).symm
    rw [hdrop] at htake
    rw [h.unique htake]
    exact ⟨c, rfl, rfl, hdrop⟩

theorem eq_of_takes_bytes (hused : s.used = 0) (h : Takes s (bs.flatMap byteBits) t) :
    s.bytes = bs ++ t.bytes ∧ t.used = 0 := by
  induction bs generalizing s with
  | nil => cases h; exact ⟨rfl, hused⟩
  | cons b bs ih =>
    obtain ⟨m, hb, hbs⟩ := h.of_append
    obtain ⟨c, hc, hm, hbyte⟩ := exists_of_takes_byte (b := b) (s := s) (by omega) (by rwa [hused])
    rw [hused, List.drop_zero, List.drop_zero] at hbyte
    obtain ⟨hrest, ht⟩ := ih hm hbs
    rw [hc, hrest, byteBits_injective hbyte]
    exact ⟨rfl, ht⟩

/-! ## Local relations -/

/-- A relation of a source and what is left of it is local if it is decided by the bits in between,
and by how far into a byte they start. -/
def Local (R : BitSource → BitSource → Prop) : Prop :=
  ∀ ⦃s t⦄, s.used < 8 → R s t → ∃ xs, s.Takes xs t ∧
    ∀ ⦃s' t'⦄, s'.used = s.used → s'.Takes xs t' → R s' t'

namespace Local

variable {R S : BitSource → BitSource → Prop}

theorem congr (h : ∀ s t, S s t ↔ R s t) (hR : Local R) : Local S := by
  have hRS : S = R := funext₂ fun s t => propext (h s t)
  rwa [hRS]

theorem refl : Local fun s t => s = t := by
  rintro s t - rfl
  exact ⟨[], .nil s, fun s' t' _ h => by cases h; rfl⟩

theorem comp (hR : Local R) (hS : Local S) : Local fun s u => ∃ t, R s t ∧ S t u := by
  rintro s u hused ⟨t, hst, htu⟩
  obtain ⟨xs, hxs, hxs'⟩ := hR hused hst
  obtain ⟨ys, hys, hys'⟩ := hS (hxs.bits_eq hused).2 htu
  refine ⟨xs ++ ys, hxs.append hys, fun s' u' hsame h => ?_⟩
  obtain ⟨t', hst', htu'⟩ := h.of_append
  exact ⟨t', hxs' hsame hst', hys' (hxs.used_eq hst' rfl hsame) htu'⟩

theorem ex {α : Type} {R : α → BitSource → BitSource → Prop} (h : ∀ x, Local (R x)) :
    Local fun s t => ∃ x, R x s t := by
  rintro s t hused ⟨x, hx⟩
  obtain ⟨xs, htakes, hsame⟩ := h x hused hx
  exact ⟨xs, htakes, fun s' t' hused' h' => ⟨x, hsame hused' h'⟩⟩

theorem and {p : Prop} (h : p → Local R) : Local fun s t => p ∧ R s t := by
  rintro s t hused ⟨hp, hR⟩
  obtain ⟨xs, htakes, hsame⟩ := h hp hused hR
  exact ⟨xs, htakes, fun s' t' hused' h' => ⟨hp, hsame hused' h'⟩⟩

theorem ite {p : Prop} [Decidable p] (hR : p → Local R) (hS : ¬ p → Local S) :
    Local fun s t => if p then R s t else S s t := by
  split_ifs with hp
  · exact hR hp
  · exact hS hp

theorem of_not (h : ∀ s t, ¬ R s t) : Local R := fun s t _ hR => absurd hR (h s t)

end Local

/-! ## Readers -/

theorem local_bit? (x : Nat) : Local fun s t => s.bit? = some (x, t) := by
  intro s t _ h
  refine ⟨[x], .cons h (.nil t), fun s' t' _ h' => ?_⟩
  cases h' with
  | cons hbit hnil => cases hnil; exact hbit

theorem number?_succ_eq_some_iff {width n : Nat} : s.number? (width + 1) = some (n, t) ↔
    ∃ x high, x + 2 * high = n ∧
      ∃ m, s.bit? = some (x, m) ∧ m.number? width = some (high, t) := by
  rw [number?]
  rcases s.bit? with _ | ⟨x, m⟩
  · simp
  · rcases hm : m.number? width with _ | ⟨high, r⟩ <;> simp [hm]

theorem local_number? (width n : Nat) : Local fun s t => s.number? width = some (n, t) := by
  induction width generalizing n with
  | zero =>
    refine .congr (fun s t => ?_) (.and fun _ : 0 = n => .refl)
    rw [number?, Option.some.injEq, Prod.mk.injEq]
  | succ width ih =>
    exact .congr (fun s t => number?_succ_eq_some_iff)
      (.ex fun x => .ex fun high => .and fun _ => (local_bit? x).comp (ih high))

theorem used_align (s : BitSource) : s.align.used = 0 := by
  rw [align]
  split_ifs with h
  · exact h
  · rfl

theorem local_align : Local fun s t => (s.used = 0 ∨ s.bytes ≠ []) ∧ s.align = t := by
  rintro ⟨bytes, used⟩ t hused ⟨hthere, rfl⟩
  change used < 8 at hused
  by_cases hzero : used = 0
  · refine ⟨[], ?_, fun s' t' hsame h => ?_⟩
    · rw [align, if_pos hzero]
      exact .nil _
    · cases h
      exact ⟨.inl (hsame.trans hzero), if_pos (hsame.trans hzero)⟩
  · obtain ⟨b, rest, rfl⟩ := List.exists_cons_of_ne_nil (hthere.resolve_left hzero)
    refine ⟨(byteBits b).drop used, ?_, fun s' t' hsame h => ?_⟩
    · rw [align, if_neg hzero]
      exact takes_byte hused
    · change s'.used = used at hsame
      subst hsame
      obtain ⟨c, hc, ht, -⟩ := exists_of_takes_byte hused h
      refine ⟨.inr (by rw [hc]; exact List.cons_ne_nil c _), ?_⟩
      rw [align, if_neg hzero, hc, List.drop_one, List.tail_cons, ← ht]

theorem local_bytes (bs : Bytes) : Local fun s t => s = ⟨bs ++ t.bytes, 0⟩ ∧ t.used = 0 := by
  rintro s ⟨rest, used⟩ - ⟨rfl, rfl⟩
  refine ⟨bs.flatMap byteBits, takes_bytes, fun s' t' hsame h => ?_⟩
  obtain ⟨hbytes, ht⟩ := eq_of_takes_bytes hsame h
  refine ⟨?_, ht⟩
  rw [← hbytes]
  exact congrArg (BitSource.mk s'.bytes) hsame

end PakIndex.BitSource
