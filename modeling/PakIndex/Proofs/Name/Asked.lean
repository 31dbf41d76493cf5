import PakIndex.Proofs.Name.Pool
import PakIndex.Proofs.Name.Utf8

/-!
# Stored names and paths that are asked for

* **`segments_eq_splitOnP`**: the segments of a name are its pieces between separators, without the
  empty ones.
* `NamePool.isPartOf_of_mem_segments`: the parts of a name in a pool lie inside the name, and none
  of them is empty.
* `NamePool.pushAll`: a pool that has got more names; `get_pushAll`: what stood in it stands there
  still.
* **`NamePool.path_push`**: a path that is stored is read back as what the path asks for.
* **`names_folded_alike`**: names and paths are cut and normalized in one way.
-/

namespace PakIndex

/-! ## Pieces between separators -/

theorem segmentsAfter_eq_splitOnP (bs run : Bytes) : segmentsAfter run bs =
    ((bs.splitOnP isSeparator).modifyHead (run.reverse ++ ·)).filter (· ≠ []) := by
  have hrun : ∀ (run : Bytes) (pieces : List Bytes), consRun run (pieces.filter (· ≠ [])) =
      (run.reverse :: pieces).filter (· ≠ []) := by
    intro run pieces
    cases run <;> simp [consRun]
  induction bs generalizing run with
  | nil => simpa [segmentsAfter] using hrun run []
  | cons b bs ih =>
    rw [segmentsAfter, List.splitOnP_cons_eq_if_modifyHead]
    split
    · have hfirst : (bs.splitOnP isSeparator).modifyHead (([] : Bytes).reverse ++ ·) =
          bs.splitOnP isSeparator := List.modifyHead_id ▸ rfl
      rw [ih, hfirst, hrun, List.modifyHead_cons, List.append_nil]
    · have hmore : (run.reverse ++ ·) ∘ List.cons b = ((b :: run).reverse ++ ·) := by
        funext piece
        simp
      rw [ih, List.modifyHead_modifyHead, hmore]

/-- **The segments of a name are its pieces between separators**, without the empty ones. -/
theorem segments_eq_splitOnP (name : Bytes) :
    segments name = (name.splitOnP isSeparator).filter (· ≠ []) := by
  rw [segments, segmentsAfter_eq_splitOnP]
  exact congrArg _ (List.modifyHead_id ▸ rfl)

/-! ## Parts of a stored name -/

/-- Whether a place is a part of another one, and not an empty one. -/
def NameRef.IsPartOf (q r : NameRef) : Prop :=
  q.len ≠ 0 ∧ r.start.toNat ≤ q.start.toNat ∧
    q.start.toNat + q.len.toNat ≤ r.start.toNat + r.len.toNat

namespace NamePool

variable {p : NamePool} {q r : NameRef} {names : List Bytes}

/-- A run and what is found behind it lie between its start and the end of the bytes, where no sum
wraps around. -/
theorem bounds_of_mem_segmentsAfter (bs : Bytes) (start len : UInt32)
    (hin : start.toNat + len.toNat + bs.length < 2 ^ 32) :
    ∀ q ∈ segmentsAfter start len bs, q.len ≠ 0 ∧ start.toNat ≤ q.start.toNat ∧
      q.start.toNat + q.len.toNat ≤ start.toNat + len.toNat + bs.length := by
  have hrun : ∀ (start len : UInt32) (rest : List NameRef), ∀ q ∈ consRef start len rest,
      q = ⟨start, len⟩ ∧ len ≠ 0 ∨ q ∈ rest := by
    intro start len rest q hq
    unfold consRef at hq
    split_ifs at hq with hlen
    · exact .inr hq
    · exact (List.mem_cons.mp hq).imp_left fun h => ⟨h, hlen⟩
  induction bs generalizing start len with
  | nil =>
    intro q hq
    obtain ⟨rfl, hlen⟩ | hq := hrun start len [] q hq
    · exact ⟨hlen, Nat.le_refl _, Nat.le_refl _⟩
    · cases hq
  | cons b bs ih =>
    intro q hq
    rw [List.length_cons] at hin ⊢
    have h₁ : (1 : UInt32).toNat = 1 := rfl
    have hend : (len + 1).toNat = len.toNat + 1 := by
      rw [UInt32.toNat_add]
      omega
    have hnext : (start + len + 1).toNat = start.toNat + len.toNat + 1 := by
      rw [UInt32.toNat_add, UInt32.toNat_add]
      omega
    rw [segmentsAfter] at hq
    split at hq
    · obtain ⟨rfl, hlen⟩ | hq := hrun start len _ q hq
      · exact ⟨hlen, Nat.le_refl _, Nat.le_add_right _ _⟩
      · obtain ⟨hq, hlow, hhigh⟩ := ih _ _ (by rw [hnext, UInt32.toNat_zero]; omega) q hq
        rw [hnext, UInt32.toNat_zero] at hhigh
        exact ⟨hq, by omega, by omega⟩
    · obtain ⟨hq, hlow, hhigh⟩ := ih _ _ (by omega) q hq
      exact ⟨hq, hlow, by omega⟩

/-- **The parts of a name lie inside the name**, and none of them is empty. -/
theorem isPartOf_of_mem_segments (hs : p.size < 2 ^ 32) (h : p.Holds r) (hq : q ∈ p.segments r) :
    q.IsPartOf r := by
  have hlen := length_get h
  have hroom : r.start.toNat + r.len.toNat ≤ p.size := h
  have hq := bounds_of_mem_segmentsAfter (p.get r) r.start 0
    (by rw [hlen, UInt32.toNat_zero]; omega) q hq
  rwa [hlen, UInt32.toNat_zero] at hq

/-! ## Pools that get more names -/

/-- The pool that got more names, one after the other. -/
def pushAll (p : NamePool) (names : List Bytes) : NamePool :=
  names.foldl (fun p name => (p.push name).2) p

theorem size_le_pushAll (p : NamePool) (names : List Bytes) : p.size ≤ (p.pushAll names).size := by
  induction names generalizing p with
  | nil => exact Nat.le_refl _
  | cons name names ih =>
    refine Nat.le_trans ?_ (ih (p.push name).2)
    rw [size_push]
    exact Nat.le_add_right _ _

theorem Holds.pushAll (h : p.Holds r) : (p.pushAll names).Holds r := by
  induction names generalizing p with
  | nil => exact h
  | cons name names ih => exact ih h.push

theorem get_pushAll (h : p.Holds r) : (p.pushAll names).get r = p.get r := by
  induction names generalizing p with
  | nil => rfl
  | cons name names ih => exact (ih h.push).trans (get_push h)

/-- **A stored path is read back as what the path asks for**, wherever it stands in the pool. -/
theorem path_push (p : NamePool) (path : String) (later : List Bytes)
    (hs : ((p.push (utf8 path)).2.pushAll later).size < 2 ^ 32) :
    ((p.push (utf8 path)).2.pushAll later).path (p.push (utf8 path)).1 = querySegments path := by
  have hheld := holds_push_self p (utf8 path)
  have hsize := size_le_pushAll (p.push (utf8 path)).2 later
  rw [size_push] at hsize
  rw [path_eq hs hheld.pushAll, get_pushAll hheld, get_push_self (by omega),
    segments_normalizeName, querySegments]

end NamePool

/-! ## Names and paths -/

/-- **Names and paths are cut and normalized in one way.** A path that is stored as a name, at any
place of a pool that stays under 4 GiB, has as its parts exactly the segments that the path asks
for: the pieces of its text between separators that are not empty, normalized. These parts lie
inside the stored name and inside the pool, and none of them is empty. To normalize the characters
of a path is to normalize its bytes, and changes nothing of what it asks for. Any two names match if
and only if they are equal byte by byte once they are normalized. -/
theorem names_folded_alike (p : NamePool) (path : String) (later : List Bytes) :
    let stored := (p.push (utf8 path)).1
    let pool := (p.push (utf8 path)).2.pushAll later
    (pool.size < 2 ^ 32 →
      (pool.segments stored).map pool.get = querySegments path ∧
      ∀ part ∈ pool.segments stored, part.IsPartOf stored ∧ pool.Holds part) ∧
    querySegments path = (((utf8 path).splitOnP isSeparator).filter (· ≠ [])).map
      (·.map normalizeByte) ∧
    utf8 (normalizePath path) = (utf8 path).map normalizeByte ∧
    querySegments (normalizePath path) = querySegments path ∧
    ∀ a b, namesMatch a b = true ↔ a.map normalizeByte = b.map normalizeByte := by
  intro stored pool
  refine ⟨fun hs => ⟨NamePool.path_push p path later hs, fun part hpart => ?_⟩, ?_,
    utf8_normalizePath path, ?_, fun a b => namesMatch_iff⟩
  · have hheld : pool.Holds stored := (NamePool.holds_push_self p (utf8 path)).pushAll
    exact ⟨NamePool.isPartOf_of_mem_segments hs hheld hpart,
      NamePool.holds_of_mem_segments hheld hpart⟩
  · rw [querySegments, segments_eq_splitOnP]
    rfl
  · rw [querySegments_eq, querySegments_eq, utf8_normalizePath, utf8_normalizePath,
      normalizeName_idem]

/-- A path with separators of both kinds at both ends and side by side, and with letters inside and
outside ASCII, that is stored behind another name and in front of a third. -/
theorem names_folded_alike_mixed :
    let p := (NamePool.empty.push [0x78, 0x2F]).2
    let path := "\\Ä//bC\\/"
    let stored := (p.push (utf8 path)).1
    let pool := (p.push (utf8 path)).2.pushAll [[0x79]]
    pool.size < 2 ^ 32 ∧ (pool.segments stored).map pool.get = [[0xC3, 0x84], [0x62, 0x63]] ∧
      (∀ part ∈ pool.segments stored, part.IsPartOf stored ∧ pool.Holds part) ∧
      namesMatch (utf8 "\\Ä//bC\\/") (utf8 "/Ä\\/Bc//") = true := by
  intro p path stored pool
  have hs : pool.size < 2 ^ 32 := by decide +kernel
  obtain ⟨hparts, -, -, -, hmatch⟩ := names_folded_alike p path [[0x79]]
  obtain ⟨hread, hwithin⟩ := hparts hs
  have hasked : querySegments path = [[0xC3, 0x84], [0x62, 0x63]] := by decide +kernel
  exact ⟨hs, hread.trans hasked, hwithin, (hmatch _ _).mpr (by decide +kernel)⟩

end PakIndex
