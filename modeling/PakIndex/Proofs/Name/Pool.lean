import PakIndex.Name.Pool
import PakIndex.Proofs.Name.Fold
import Mathlib.Tactic

/-!
# What a pool of names holds

* `NamePool.Holds`: a reference lies inside a pool; `Holds.push`: and stays there.
* `get_push_self`, `get_push`: a pushed name is read back normalized, the others are as before.
* `holds_of_mem_segments`: the parts of a name in a pool lie in the pool, whatever its size.
* **`path_eq`**: the parts of a name in a pool are the segments of its bytes.
* `NamePool.ofNames`: the pool of a list of names.
-/

namespace PakIndex.NamePool

/-- The bytes of a pool. -/
def toList (p : NamePool) : Bytes := p.bytes.data.toList

/-- Whether a place lies inside a pool. -/
def Holds (p : NamePool) (r : NameRef) : Prop := r.start.toNat + r.len.toNat ≤ p.size

instance (p : NamePool) (r : NameRef) : Decidable (p.Holds r) := by unfold Holds; infer_instance

variable {p : NamePool} {r : NameRef} {name : Bytes}

@[simp] theorem length_toList : p.toList.length = p.size := by
  rw [toList, Array.length_toList, ByteArray.size_data, size]

theorem get_eq : p.get r = (p.toList.drop r.start.toNat).take r.len.toNat := by
  rw [get, ByteArray.data_extract, Array.toList_extract, List.extract_eq_take_drop, toList,
    Nat.add_sub_cancel_left]

theorem length_get (h : p.Holds r) : (p.get r).length = r.len.toNat := by
  unfold Holds at h
  rw [get_eq, List.length_take, List.length_drop, length_toList]
  omega

/-! ## Pushing a name -/

theorem toList_push : (p.push name).2.toList = p.toList ++ normalizeName name := by
  simp [toList, push]

theorem size_push : (p.push name).2.size = p.size + name.length := by
  rw [← length_toList, toList_push, List.length_append, length_normalizeName, length_toList]

theorem Holds.push (h : p.Holds r) : (p.push name).2.Holds r := by
  unfold Holds at h ⊢
  rw [size_push]
  omega

theorem get_push (h : p.Holds r) : (p.push name).2.get r = p.get r := by
  unfold Holds at h
  rw [get_eq, get_eq, toList_push, List.drop_append_of_le_length (by rw [length_toList]; omega),
    List.take_append_of_le_length (by rw [List.length_drop, length_toList]; omega)]

theorem holds_push_self (p : NamePool) (name : Bytes) : (p.push name).2.Holds (p.push name).1 := by
  have h₁ := Nat.mod_le p.size (2 ^ 32)
  have h₂ := Nat.mod_le name.length (2 ^ 32)
  unfold Holds
  rw [size_push]
  simp only [NamePool.push, UInt32.toNat_ofNat']
  omega

/-- **A pushed name is read back normalized.** -/
theorem get_push_self (h : p.size + name.length < 2 ^ 32) :
    (p.push name).2.get (p.push name).1 = normalizeName name := by
  have hs : (p.push name).1.start.toNat = p.toList.length := by
    rw [length_toList]
    simp only [NamePool.push, UInt32.toNat_ofNat']
    omega
  have hl : (p.push name).1.len.toNat = (normalizeName name).length := by
    rw [length_normalizeName]
    simp only [NamePool.push, UInt32.toNat_ofNat']
    omega
  rw [get_eq, toList_push, hs, hl, List.drop_left, List.take_length]

/-! ## The parts of a name -/

theorem holds_of_mem_consRef {start len : UInt32} {rest : List NameRef}
    (hin : start.toNat + len.toNat ≤ p.size) (hrest : ∀ q ∈ rest, p.Holds q) :
    ∀ q ∈ consRef start len rest, p.Holds q := by
  unfold consRef
  split
  · exact hrest
  · exact List.forall_mem_cons.mpr ⟨hin, hrest⟩

/-- The references of `segmentsAfter` lie inside the pool. An offset that wraps around only gets
smaller. -/
theorem holds_of_mem_segmentsAfter (bs : Bytes) (start len : UInt32)
    (hin : start.toNat + len.toNat + bs.length ≤ p.size) :
    ∀ q ∈ segmentsAfter start len bs, p.Holds q := by
  induction bs generalizing start len with
  | nil => exact holds_of_mem_consRef hin (by simp)
  | cons b bs ih =>
    have h₁ : (1 : UInt32).toNat = 1 := rfl
    have hlen : (len + 1).toNat ≤ len.toNat + 1 := by
      rw [UInt32.toNat_add, h₁]
      exact Nat.mod_le _ _
    have hstart : (start + len + 1).toNat ≤ start.toNat + len.toNat + 1 := by
      rw [UInt32.toNat_add, UInt32.toNat_add, h₁]
      omega
    rw [List.length_cons] at hin
    rw [segmentsAfter]
    split
    · refine holds_of_mem_consRef (by omega) (ih _ _ ?_)
      rw [UInt32.toNat_zero]
      omega
    · exact ih _ _ (by omega)

theorem holds_of_mem_segments (h : p.Holds r) {q : NameRef} (hq : q ∈ p.segments r) :
    p.Holds q := by
  refine holds_of_mem_segmentsAfter (p.get r) r.start 0 ?_ q hq
  rw [length_get h, UInt32.toNat_zero]
  exact h

theorem map_get_consRef {start len : UInt32} {run tail : Bytes} {rest : List NameRef}
    (hlen : len.toNat = run.length) (hrun : p.toList.drop start.toNat = run.reverse ++ tail) :
    (consRef start len rest).map p.get = consRun run (rest.map p.get) := by
  unfold consRef consRun
  cases run with
  | nil =>
    have h0 : len = 0 := UInt32.toNat_inj.mp hlen
    rw [if_pos h0]
    rfl
  | cons x run =>
    have h0 : len ≠ 0 := fun h => by rw [h] at hlen; cases hlen
    have hget : p.get ⟨start, len⟩ = (x :: run).reverse := by
      rw [get_eq, hrun, hlen, ← List.length_reverse, List.take_left]
    rw [if_neg h0, List.map_cons, hget]
    rfl

/-- The references of `segmentsAfter` read back as the segments of the bytes that they were made
for: `run`, backwards, is what stands at `start`, and `bs` follows it. -/
theorem map_get_segmentsAfter (hs : p.size < 2 ^ 32) (bs run tail : Bytes) (start len : UInt32)
    (hlen : len.toNat = run.length) (hin : start.toNat + len.toNat + bs.length ≤ p.size)
    (hrun : p.toList.drop start.toNat = run.reverse ++ (bs ++ tail)) :
    (segmentsAfter start len bs).map p.get = PakIndex.segmentsAfter run bs := by
  induction bs generalizing run start len with
  | nil => exact map_get_consRef hlen hrun
  | cons b bs ih =>
    rw [List.length_cons] at hin
    have h1 : (1 : UInt32).toNat = 1 := rfl
    rw [segmentsAfter, PakIndex.segmentsAfter]
    split
    · have hadd : (start + len + 1).toNat = start.toNat + (len.toNat + 1) := by
        rw [UInt32.toNat_add, UInt32.toNat_add]
        omega
      have hdrop : p.toList.drop (start + len + 1).toNat =
        ([] : Bytes).reverse ++ (bs ++ tail) := by
        rw [hadd, ← List.drop_drop, hrun, List.drop_append]
        simp [hlen]
      rw [← ih [] (start + len + 1) 0 rfl (by rw [hadd, UInt32.toNat_zero]; omega) hdrop]
      exact map_get_consRef hlen hrun
    · have hadd : (len + 1).toNat = len.toNat + 1 := by
        rw [UInt32.toNat_add]
        omega
      refine ih (b :: run) start (len + 1) ?_ ?_ ?_
      · rw [hadd, hlen, List.length_cons]
      · omega
      · rw [hrun, List.reverse_cons, List.append_assoc]
        rfl

/-- **The parts of a name in a pool are the segments of its bytes.** -/
theorem path_eq (hs : p.size < 2 ^ 32) (h : p.Holds r) :
    p.path r = PakIndex.segments (p.get r) := by
  refine map_get_segmentsAfter hs (p.get r) [] ((p.toList.drop r.start.toNat).drop r.len.toNat)
    r.start 0 rfl ?_ ?_
  · rw [length_get h, UInt32.toNat_zero]
    exact h
  · rw [get_eq, List.take_append_drop]
    rfl

/-! ## The pool of a list of names -/

/-- The pool of a list of names, pushed one after the other, and where they stand in it. -/
def ofNames (raws : List Bytes) : List NameRef × NamePool :=
  raws.foldl (fun (refs, p) raw => (refs ++ [(p.push raw).1], (p.push raw).2)) ([], empty)

theorem ofNames_concat (raws : List Bytes) (raw : Bytes) :
    ofNames (raws ++ [raw]) = ((ofNames raws).1 ++ [((ofNames raws).2.push raw).1],
      ((ofNames raws).2.push raw).2) := by
  rw [ofNames, List.foldl_append]
  rfl

theorem size_ofNames (raws : List Bytes) :
    (ofNames raws).2.size = (raws.map List.length).sum := by
  induction raws using List.reverseRecOn with
  | nil => rfl
  | append_singleton raws raw ih =>
    rw [ofNames_concat, size_push, ih, List.map_append, List.sum_append]
    rfl

theorem holds_of_mem_ofNames {raws : List Bytes} {r : NameRef} (hr : r ∈ (ofNames raws).1) :
    (ofNames raws).2.Holds r := by
  induction raws using List.reverseRecOn with
  | nil => cases hr
  | append_singleton raws raw ih =>
    rw [ofNames_concat] at hr ⊢
    rcases List.mem_append.mp hr with hr | hr
    · exact (ih hr).push
    · rw [List.mem_singleton.mp hr]
      exact holds_push_self _ raw

end PakIndex.NamePool
