import PakIndex.Tree.Shelf
import Mathlib.Tactic

/-!
# Searching a shelf

On a shelf in strict order halving finds what a scan would find.

* `Shelf.Sorted`: the names on a shelf increase strictly.
* **`Shelf.spot_cases`**: the search splits a sorted shelf at the name, or at the gap where it
  belongs.
* `Shelf.get?_eq_some_iff`: what is read under a name is what stands under it.
* `Shelf.alter_spec`, `Shelf.toList_modify`: what putting and changing do to a sorted shelf.
-/

namespace PakIndex

theorem Bytes.not_lt_self {a : Bytes} : compare a a ≠ .lt := by
  rw [Std.compare_eq_iff_eq.mpr rfl]
  exact nofun

/-- What the search says about the side of `key` on which the elements of an array stand, when it is
narrowed down to `[lo, hi)`. -/
theorem searchBetween_cases {α : Type} (order : α → Ordering) {a : Array α}
    (hs : ∀ i j (_ : i < j) (hj : j < a.size), order a[j] = .lt → order a[i] = .lt)
    (hs' : ∀ i j (_ : i < j) (hj : j < a.size), order a[i] = .gt → order a[j] = .gt)
    {lo hi : Nat} (hlo : lo ≤ hi) (hhi : hi ≤ a.size)
    (hlt : ∀ i (_ : i < lo) (_ : i < a.size), order a[i] = .lt)
    (hgt : ∀ i (_ : hi ≤ i) (_ : i < a.size), order a[i] = .gt) :
    (∃ i, searchBetween order a lo hi hlo hhi = .found i ∧ order a[i] = .eq) ∨
      ∃ i : Fin (a.size + 1), searchBetween order a lo hi hlo hhi = .gap i ∧
        (∀ j (_ : j < i.1) (_ : j < a.size), order a[j] = .lt) ∧
        ∀ j (_ : i.1 ≤ j) (_ : j < a.size), order a[j] = .gt := by
  induction h : hi - lo using Nat.strongRecOn generalizing lo hi with
  | ind n ih =>
    rw [searchBetween]
    by_cases hn : lo < hi
    · have hmid : (lo + hi) / 2 < a.size := by omega
      rw [dif_pos hn]
      cases hc : order a[(lo + hi) / 2] with
      | eq => exact .inl ⟨⟨_, hmid⟩, rfl, hc⟩
      | lt =>
        refine ih (hi - ((lo + hi) / 2 + 1)) (by omega) (by omega) hhi ?_ hgt rfl
        intro i hi' hia
        rcases Nat.lt_or_eq_of_le (Nat.le_of_lt_succ hi') with hlt' | rfl
        · exact hs i _ hlt' hmid hc
        · exact hc
      | gt =>
        refine ih ((lo + hi) / 2 - lo) (by omega) (by omega) (by omega) hlt ?_ rfl
        intro i hi' hia
        rcases Nat.lt_or_eq_of_le hi' with hlt' | rfl
        · exact hs' _ i hlt' hia hc
        · exact hc
    · rw [dif_neg hn]
      exact .inr ⟨⟨lo, by omega⟩, rfl, hlt, fun j hj hja => hgt j (by simp at hj; omega) hja⟩

namespace Shelf

variable {α β : Type} {names : NamePool} {key : Bytes} {shelf : Shelf α}

/-- The names on a shelf increase strictly. -/
def Sorted (names : NamePool) (shelf : Shelf α) : Prop :=
  shelf.toList.Pairwise fun x y => compare (names.get x.1) (names.get y.1) = .lt

theorem Sorted.lt (hs : shelf.Sorted names) {i j : Nat} (hij : i < j) (hj : j < shelf.size) :
    compare (names.get shelf[i].1) (names.get shelf[j].1) = .lt := by
  have h := List.pairwise_iff_getElem.mp hs i j (by rw [Array.length_toList]; omega)
    (by rw [Array.length_toList]; exact hj) hij
  simpa using h

/-- **What the search for a name comes to on a sorted shelf**: the shelf is split at the name, or at
the gap where the name belongs. -/
theorem spot_cases (hs : shelf.Sorted names) (key : Bytes) :
    (∃ i pre x post, shelf.spot names key = .found i ∧ shelf.toList = pre ++ x :: post ∧
        pre.length = i.1 ∧ names.get x.1 = key) ∨
      ∃ i pre post, shelf.spot names key = .gap i ∧ shelf.toList = pre ++ post ∧
        pre.length = i.1 ∧ (∀ x ∈ pre, compare (names.get x.1) key = .lt) ∧
        ∀ x ∈ post, compare key (names.get x.1) = .lt := by
  have hlt : ∀ i j (_ : i < j) (hj : j < shelf.size),
      compare (names.get shelf[j].1) key = .lt → compare (names.get shelf[i].1) key = .lt :=
    fun i j hij hj h => Std.TransCmp.lt_trans (hs.lt hij hj) h
  have hgt : ∀ i j (_ : i < j) (hj : j < shelf.size),
      compare (names.get shelf[i].1) key = .gt → compare (names.get shelf[j].1) key = .gt := by
    intro i j hij hj h
    rw [Std.OrientedCmp.gt_iff_lt] at h ⊢
    exact Std.TransCmp.lt_trans h (hs.lt hij hj)
  rcases searchBetween_cases (fun x : NameRef × α => compare (names.get x.1) key) hlt hgt
    (Nat.zero_le _) (Nat.le_refl _) (fun i h => absurd h (Nat.not_lt_zero _))
    (fun i h h' => absurd h' (Nat.not_lt.mpr h)) with ⟨i, hi, he⟩ | ⟨i, hi, hl, hg⟩
  · refine .inl ⟨i, shelf.toList.take i, shelf[i], shelf.toList.drop (i + 1), hi, ?_, ?_, ?_⟩
    · rw [Fin.getElem_fin, ← Array.getElem_toList, ← List.drop_eq_getElem_cons,
        List.take_append_drop]
    · rw [List.length_take, Array.length_toList]
      omega
    · exact Std.compare_eq_iff_eq.mp he
  · refine .inr ⟨i, shelf.toList.take i, shelf.toList.drop i, hi, (List.take_append_drop _ _).symm,
      ?_, ?_, ?_⟩
    · rw [List.length_take, Array.length_toList]
      omega
    · intro x hx
      obtain ⟨j, hj, rfl⟩ := List.mem_iff_getElem.mp hx
      rw [List.length_take, Array.length_toList] at hj
      rw [List.getElem_take, Array.getElem_toList]
      exact hl j (by omega) (by omega)
    · intro x hx
      obtain ⟨j, hj, rfl⟩ := List.mem_iff_getElem.mp hx
      rw [List.length_drop, Array.length_toList] at hj
      rw [List.getElem_drop, Array.getElem_toList, ← Std.OrientedCmp.gt_iff_lt]
      exact hg (i + j) (by omega) (by omega)

theorem Sorted.ne_of_split {pre post : List (NameRef × α)} {x : NameRef × α}
    (hs : shelf.Sorted names) (h : shelf.toList = pre ++ x :: post) :
    ∀ y ∈ pre ++ post, names.get y.1 ≠ names.get x.1 := by
  intro y hy he
  unfold Sorted at hs
  rw [h, List.pairwise_append, List.pairwise_cons] at hs
  rcases List.mem_append.mp hy with hy | hy
  · have hlt := hs.2.2 y hy x List.mem_cons_self
    rw [he] at hlt
    exact Bytes.not_lt_self hlt
  · have hlt := hs.2.1.1 y hy
    rw [he] at hlt
    exact Bytes.not_lt_self hlt

theorem ne_of_gap {pre post : List (NameRef × α)}
    (hpre : ∀ x ∈ pre, compare (names.get x.1) key = .lt)
    (hpost : ∀ x ∈ post, compare key (names.get x.1) = .lt) :
    ∀ y ∈ pre ++ post, names.get y.1 ≠ key := by
  rintro y hy rfl
  rcases List.mem_append.mp hy with hy | hy
  · exact Bytes.not_lt_self (hpre y hy)
  · exact Bytes.not_lt_self (hpost y hy)

theorem insertIdx_split (pre post : List α) (x : α) :
    (pre ++ post).insertIdx pre.length x = pre ++ x :: post := by
  induction pre with
  | nil => rfl
  | cons y pre ih => rw [List.cons_append, List.length_cons, List.insertIdx_succ_cons, ih]; rfl

theorem modify_split (pre post : List α) (x : α) (f : α → α) :
    (pre ++ x :: post).modify pre.length f = pre ++ f x :: post := by
  induction pre with
  | nil => rfl
  | cons y pre ih => rw [List.cons_append, List.length_cons, List.modify_succ_cons, ih]; rfl

theorem get?_gap {i : Fin (shelf.size + 1)} (h : shelf.spot names key = .gap i) :
    shelf.get? names key = none := by rw [get?, h]

theorem getElem_of_split {pre post : List (NameRef × α)} {x : NameRef × α} {i : Fin shelf.size}
    (h : shelf.toList = pre ++ x :: post) (hi : pre.length = i.1) : shelf[i] = x := by
  rw [Fin.getElem_fin, ← Array.getElem_toList]
  simp [h, ← hi]

theorem get?_found {pre post : List (NameRef × α)} {x : NameRef × α} {i : Fin shelf.size}
    (hspot : shelf.spot names key = .found i) (h : shelf.toList = pre ++ x :: post)
    (hi : pre.length = i.1) : shelf.get? names key = some x.2 := by
  rw [get?, hspot]
  exact congrArg (fun x => some x.2) (getElem_of_split h hi)

/-- **What is read under a name on a sorted shelf is what stands under it.** -/
theorem get?_eq_some_iff (hs : shelf.Sorted names) {v : α} :
    shelf.get? names key = some v ↔ ∃ r, (r, v) ∈ shelf.toList ∧ names.get r = key := by
  rcases spot_cases hs key with ⟨i, pre, x, post, hspot, hl, hi, hx⟩ |
    ⟨i, pre, post, hspot, hl, hi, hpre, hpost⟩
  · rw [get?_found hspot hl hi, hl]
    constructor
    · rintro h
      cases h
      exact ⟨x.1, by simp, hx⟩
    · rintro ⟨r, hr, hk⟩
      have hne := hs.ne_of_split hl (r, v)
      rcases List.mem_append.mp hr with h | h
      · exact absurd (hk.trans hx.symm) (hne (List.mem_append_left _ h))
      · rcases List.mem_cons.mp h with h | h
        · rw [← h]
        · exact absurd (hk.trans hx.symm) (hne (List.mem_append_right _ h))
  · rw [get?_gap hspot, hl]
    constructor
    · intro h
      cases h
    · rintro ⟨r, hr, hk⟩
      exact absurd hk (ne_of_gap hpre hpost (r, v) hr)

theorem Sorted.replace {pre post : List (NameRef × α)} {x y : NameRef × α} {shelf' : Shelf α}
    (hs : shelf.Sorted names) (h : shelf.toList = pre ++ x :: post)
    (h' : shelf'.toList = pre ++ y :: post) (hy : names.get y.1 = names.get x.1) :
    shelf'.Sorted names := by
  unfold Sorted at hs ⊢
  rw [h, List.pairwise_append, List.pairwise_cons] at hs
  rw [h', List.pairwise_append, List.pairwise_cons, hy]
  refine ⟨hs.1, hs.2.1, fun a ha b hb => ?_⟩
  rcases List.mem_cons.mp hb with rfl | hb
  · rw [hy]
    exact hs.2.2 a ha x List.mem_cons_self
  · exact hs.2.2 a ha b (List.mem_cons_of_mem _ hb)

theorem Sorted.insert {pre post : List (NameRef × α)} {y : NameRef × α} {shelf' : Shelf α}
    (hs : shelf.Sorted names) (h : shelf.toList = pre ++ post)
    (h' : shelf'.toList = pre ++ y :: post)
    (hpre : ∀ x ∈ pre, compare (names.get x.1) (names.get y.1) = .lt)
    (hpost : ∀ x ∈ post, compare (names.get y.1) (names.get x.1) = .lt) : shelf'.Sorted names := by
  unfold Sorted at hs ⊢
  rw [h, List.pairwise_append] at hs
  rw [h', List.pairwise_append, List.pairwise_cons]
  refine ⟨hs.1, ⟨hpost, hs.2.1⟩, fun a ha b hb => ?_⟩
  rcases List.mem_cons.mp hb with rfl | hb
  · exact hpre a ha
  · exact hs.2.2 a ha b hb

theorem Sorted.mem_replace {pre post : List (NameRef × α)} {x y : NameRef × α}
    (hs : shelf.Sorted names) (h : shelf.toList = pre ++ x :: post) (z : NameRef × α) :
    z ∈ pre ++ y :: post ↔ z = y ∨ z ∈ shelf.toList ∧ names.get z.1 ≠ names.get x.1 := by
  have hne := hs.ne_of_split h
  rw [h, List.mem_append, List.mem_cons, List.mem_append, List.mem_cons]
  constructor
  · rintro (hz | rfl | hz)
    · exact .inr ⟨.inl hz, hne z (List.mem_append_left _ hz)⟩
    · exact .inl rfl
    · exact .inr ⟨.inr (.inr hz), hne z (List.mem_append_right _ hz)⟩
  · rintro (rfl | ⟨hz | rfl | hz, hk⟩)
    · exact .inr (.inl rfl)
    · exact .inl hz
    · exact absurd rfl hk
    · exact .inr (.inr hz)

theorem mem_insert_gap {pre post : List (NameRef × α)} {y : NameRef × α}
    (hne : ∀ z ∈ pre ++ post, names.get z.1 ≠ key) (z : NameRef × α) :
    z ∈ pre ++ y :: post ↔ z = y ∨ z ∈ pre ++ post ∧ names.get z.1 ≠ key := by
  rw [List.mem_append, List.mem_cons, ← or_assoc, or_comm (a := z ∈ pre), or_assoc,
    ← List.mem_append]
  exact or_congr_right (iff_self_and.mpr (hne z))

/-- **What `alter` does to a sorted shelf**: `f` is told what stood under the name, what it says
then stands there, and the rest of the shelf stays as it was. -/
theorem alter_spec [Inhabited α] (hs : shelf.Sorted names) (key : Bytes)
    (f : Option (NameRef × α) → β × (NameRef × α))
    (hf : ∀ o, (∀ x, o = some x → names.get x.1 = key) → names.get (f o).2.1 = key) :
    ∃ o, (∀ x, o = some x → x ∈ shelf.toList ∧ names.get x.1 = key) ∧
      o.map Prod.snd = shelf.get? names key ∧
      (alter names key shelf f).1 = (f o).1 ∧
      (alter names key shelf f).2.Sorted names ∧
      ∀ z, z ∈ (alter names key shelf f).2.toList ↔
        z = (f o).2 ∨ z ∈ shelf.toList ∧ names.get z.1 ≠ key := by
  rcases spot_cases hs key with ⟨i, pre, x, post, hspot, hl, hi, hx⟩ |
    ⟨i, pre, post, hspot, hl, hi, hpre, hpost⟩
  · have hxi := getElem_of_split hl hi
    have hfx : names.get (f (some x)).2.1 = key := hf _ fun y hy => by cases hy; exact hx
    have hout : (alter names key shelf f).2.toList = pre ++ (f (some x)).2 :: post := by
      rw [alter, hspot]
      simp only [hxi, Array.set_set, Array.toList_set, hl, ← hi, List.set_append_right _ _ le_rfl,
        Nat.sub_self, List.set_cons_zero]
    refine ⟨some x, ?_, ?_, ?_, hs.replace hl hout (hfx.trans hx.symm), fun z => ?_⟩
    · rintro y ⟨⟩
      exact ⟨by simp [hl], hx⟩
    · rw [get?_found hspot hl hi]
      rfl
    · rw [alter, hspot]
      simp only [hxi]
    · rw [hout, hs.mem_replace hl, hx]
  · have hf0 : names.get (f none).2.1 = key := hf _ nofun
    have hout : (alter names key shelf f).2.toList = pre ++ (f none).2 :: post := by
      rw [alter, hspot]
      simp only [Array.toList_insertIdx, hl, ← hi, insertIdx_split]
    refine ⟨none, nofun, by rw [get?_gap hspot]; rfl, by rw [alter, hspot],
      hs.insert hl hout (by rwa [hf0]) (by rwa [hf0]), fun z => ?_⟩
    rw [hout, hl]
    exact mem_insert_gap (ne_of_gap hpre hpost) z

/-- **What `modify` does to a sorted shelf.** -/
theorem toList_modify (hs : shelf.Sorted names) (key : Bytes) (f : α → α) :
    (modify names key shelf f).toList =
      shelf.toList.map fun x => (x.1, if names.get x.1 = key then f x.2 else x.2) := by
  rcases spot_cases hs key with ⟨i, pre, x, post, hspot, hl, hi, hx⟩ |
    ⟨i, pre, post, hspot, hl, hi, hpre, hpost⟩
  · have hne := hs.ne_of_split hl
    have hkeep : ∀ l : List (NameRef × α), (∀ y ∈ l, names.get y.1 ≠ names.get x.1) →
        l.map (fun x => (x.1, if names.get x.1 = key then f x.2 else x.2)) = l := by
      intro l hl'
      refine (List.map_congr_left fun y hy => ?_).trans (List.map_id l)
      rw [if_neg (hx ▸ hl' y hy)]
      rfl
    rw [modify, hspot]
    simp only [Array.toList_modify, hl, ← hi, modify_split]
    rw [List.map_append, List.map_cons, hkeep pre fun y hy => hne y (List.mem_append_left _ hy),
      hkeep post fun y hy => hne y (List.mem_append_right _ hy), if_pos hx]
  · rw [modify, hspot]
    refine ((List.map_congr_left fun x hx => ?_).trans (List.map_id _)).symm
    rw [hl] at hx
    rw [if_neg (ne_of_gap hpre hpost x hx)]
    rfl

theorem Sorted.modify (hs : shelf.Sorted names) (key : Bytes) (f : α → α) :
    (Shelf.modify names key shelf f).Sorted names := by
  unfold Sorted at hs ⊢
  rw [toList_modify hs, List.pairwise_map]
  exact hs

end Shelf

end PakIndex
