import PakIndex.Proofs.Bits
import PakIndex.Proofs.Deflate.Accept
import Mathlib.Tactic

/-!
# Which bits inflation looks at

* `Deflate.local_number`, `Deflate.local_next`, `Deflate.local_dynamicCodes`: the parts of a block's
  start are decided by the bits that they take.
* `Deflate.local_inflateSymbols`, `Deflate.local_inflateStored`: so is the content of a block.
* **`Deflate.local_inflateBlocks`**: what a stream that ends is decoded to is decided by the bits up
  to the end of its last block.
* **`Deflate.inflateWindows_of_prefix`**: so what follows is not looked at.
-/

namespace PakIndex.Deflate

open BitSource

/-! ## Steps -/

section Steps

variable {α β : Type} {r : BitSource → β}

theorem local_ite {p : Prop} [Decidable p] {f g : BitSource → β}
    (hf : p → Local fun s t => f s = r t) (hg : ¬ p → Local fun s t => g s = r t) :
    Local fun s t => (if p then f s else g s) = r t := by
  split_ifs with hp
  · exact hf hp
  · exact hg hp

theorem local_bind {f : BitSource → Except Fault (α × BitSource)}
    {g : α × BitSource → Except Fault β}
    (hf : ∀ x, Local fun s t => f s = .ok (x, t))
    (hg : ∀ x, Local fun s t => g (x, s) = .ok (r t)) :
    Local fun s t => (f s >>= g) = .ok (r t) := by
  refine .congr (fun s t => ?_) (.ex fun x => (hf x).comp (hg x))
  rcases f s with e | ⟨x, m⟩
  · exact ⟨nofun, nofun⟩
  · simp only [Except.ok.injEq, Prod.mk.injEq]
    constructor
    · exact fun h => ⟨x, m, ⟨rfl, rfl⟩, h⟩
    · rintro ⟨y, n, ⟨rfl, rfl⟩, h⟩
      exact h

theorem local_guard {p : Prop} [Decidable p] {e : Fault} {f : BitSource → Except Fault β}
    {g : BitSource → PUnit → Except Fault β} (hf : ¬ p → Local fun s t => f s = .ok (r t)) :
    Local fun s t => (if p then throw e >>= g s else f s) = .ok (r t) :=
  local_ite (fun _ => .of_not fun _ _ => nofun) hf

theorem local_ok (x y : α) :
    Local fun s t => (Except.ok (x, s) : Except Fault (α × BitSource)) = .ok (y, t) := by
  refine .congr (fun s t => ?_) (.and fun _ : x = y => .refl)
  rw [Except.ok.injEq, Prod.mk.injEq]

theorem local_pure (x x' : α) (y y' : β) :
    Local fun s t => (pure (x, y, s) : Except Fault (α × β × BitSource)) = .ok (x', y', t) := by
  refine .congr (fun s t => ?_) (.and fun _ : x = x' ∧ y = y' => .refl)
  show Except.ok _ = Except.ok _ ↔ _
  rw [Except.ok.injEq, Prod.mk.injEq, Prod.mk.injEq, and_assoc]

theorem local_error (e : Fault) :
    Local fun _ t => (Except.error e : Except Fault β) = .ok (r t) :=
  .of_not fun _ _ => nofun

end Steps

/-! ## Words and numbers -/

theorem local_number (width n : Nat) : Local fun s t => number s width = .ok (n, t) := by
  refine .congr (fun s t => ?_) (local_number? width n)
  rw [number]
  rcases s.number? width with _ | r <;> simp

theorem local_extended (table : Array (Nat × Nat)) (symbol n : Nat) :
    Local fun s t => extended table symbol s = .ok (n, t) := by
  unfold extended
  rcases table[symbol]? with _ | ⟨base, width⟩
  · exact local_error _
  · refine .congr (fun s t => ?_)
      (.ex fun extra => (local_number width extra).comp (local_ok (base + extra) n))
    dsimp only
    rcases number s width with e | ⟨extra, m⟩ <;> simp [and_comm]

theorem local_search (symbols : Array Nat) (x : Nat) (counts : List Nat) (word first index : Nat) :
    Local fun s t => Code.search symbols s counts word first index = some (some x, t) := by
  induction counts generalizing word first index with
  | nil => exact .of_not fun _ _ => nofun
  | cons count counts ih =>
    have hfound (symbol : Option Nat) :
        Local fun s t => some (symbol, s) = some (some x, t) := by
      refine .congr (fun s t => ?_) (.and fun _ : symbol = some x => .refl)
      rw [Option.some.injEq, Prod.mk.injEq]
    refine .congr (fun s t => ?_) (.ex fun bit => (local_bit? bit).comp
      (local_ite (p := 2 * word + bit < first + count)
        (fun _ => hfound symbols[index + (2 * word + bit - first)]?)
        fun _ => ih (2 * word + bit) (2 * (first + count)) (index + count)))
    rw [Code.search]
    rcases s.bit? with _ | ⟨bit, m⟩ <;> simp

theorem local_next (c : Code) (symbol : Nat) : Local fun s t => c.next s = .ok (symbol, t) := by
  refine .congr (fun s t => ?_) (local_search c.symbols symbol c.counts 0 0 0)
  rw [Code.next]
  rcases Code.search c.symbols s c.counts 0 0 0 with _ | ⟨_ | x, m⟩ <;> simp

/-! ## Codes of a block's own -/

theorem local_smallNumbers (count : Nat) (ns : List Nat) :
    Local fun s t => smallNumbers s count = .ok (ns, t) := by
  induction count generalizing ns with
  | zero => exact local_ok _ _
  | succ count ih =>
    refine .congr (fun s t => ?_) (.ex fun n => (local_number 3 n).comp
      (.ex fun ns' => (ih ns').comp (local_ok (n :: ns') ns)))
    rw [smallNumbers]
    rcases number s 3 with e | ⟨n, m⟩
    · simp
    · rcases hns : smallNumbers m count with e | ⟨ns', m'⟩ <;> simp [hns, and_comm]

/-- The word lengths from a symbol on that repeats `value`: what `wordLengths` names inside
itself. -/
def repeated (c : Code) (total fuel : Nat) (found : List Nat) (count value base width : Nat)
    (s : BitSource) : Except Fault (List Nat × BitSource) :=
  number s width >>= fun p => wordLengths c total fuel p.2
    (List.replicate (base + p.1) value ++ found) (count + base + p.1)

theorem wordLengths_succ (c : Code) (total fuel : Nat) (s : BitSource) (found : List Nat)
    (count : Nat) : wordLengths c total (fuel + 1) s found count =
      if count = total then .ok (found.reverse, s)
      else if total < count then .error .corrupt
      else c.next s >>= fun p =>
        if p.1 < 16 then wordLengths c total fuel p.2 (p.1 :: found) (count + 1)
        else if p.1 = 16 then
          found.head?.elim (.error .corrupt) fun last =>
            repeated c total fuel found count last 3 2 p.2
        else if p.1 = 17 then repeated c total fuel found count 0 3 3 p.2
        else repeated c total fuel found count 0 11 7 p.2 := by
  rw [wordLengths]
  refine if_congr Iff.rfl rfl (if_congr Iff.rfl rfl ?_)
  rcases c.next s with e | ⟨symbol, m⟩
  · rfl
  refine if_congr Iff.rfl rfl (if_congr Iff.rfl ?_ (if_congr Iff.rfl ?_ ?_))
  · cases found with
    | nil => rfl
    | cons last found =>
      dsimp only [repeated, List.head?_cons, Option.elim_some]
      rcases number m 2 <;> rfl
  · dsimp only [repeated]
    rcases number m 3 <;> rfl
  · dsimp only [repeated]
    rcases number m 7 <;> rfl

theorem local_wordLengths (c : Code) (total : Nat) (ns : List Nat) (fuel : Nat) (found : List Nat)
    (count : Nat) : Local fun s t => wordLengths c total fuel s found count = .ok (ns, t) := by
  induction fuel generalizing found count with
  | zero => exact local_error _
  | succ fuel ih =>
    have hrepeated (value base width : Nat) :
        Local fun s t => repeated c total fuel found count value base width s = .ok (ns, t) :=
      local_bind (local_number width) fun extra =>
        ih (List.replicate (base + extra) value ++ found) (count + base + extra)
    simp only [wordLengths_succ]
    refine local_ite (fun _ => local_ok _ ns) fun _ => local_ite (fun _ => local_error _) fun _ =>
      local_bind (local_next c) fun symbol => ?_
    dsimp only
    refine local_ite (p := symbol < 16) (fun _ => ih _ _) fun _ =>
      local_ite (p := symbol = 16) (fun _ => ?_) fun _ =>
        local_ite (p := symbol = 17) (fun _ => hrepeated 0 3 3) fun _ => hrepeated 0 11 7
    cases found with
    | nil => exact local_error _
    | cons last found => exact hrepeated last 3 2

theorem local_dynamicCodes (c d : Code) :
    Local fun s t => dynamicCodes s = .ok (c, d, t) := by
  unfold dynamicCodes
  refine local_bind (local_number 5) fun literals => local_bind (local_number 5) fun distances =>
    local_bind (local_number 4) fun small => local_guard fun _ =>
      local_bind (local_smallNumbers (small + 4)) fun ns => local_guard fun _ =>
        local_bind (fun ns => local_wordLengths _ _ ns _ _ _) fun ns => local_guard fun _ => ?_
  exact local_pure _ c _ d

theorem local_readCopy (distances : Code) (symbol length distance : Nat) :
    Local fun s t => readCopy distances symbol s = .ok (length, distance, t) := by
  unfold readCopy
  refine local_bind (local_extended lengths symbol) fun n =>
    local_bind (local_next distances) fun symbol =>
      local_bind (local_extended Deflate.distances symbol) fun d => ?_
  exact local_pure n length d distance

theorem local_readBlockStart (last : Bool) (kind : Nat) :
    Local fun s t => readBlockStart s = .ok (last, kind, t) := by
  unfold readBlockStart
  refine local_bind (local_number 1) fun x => local_bind (local_number 2) fun k => ?_
  exact local_pure (decide (x = 1)) last k kind

/-! ## Blocks -/

section Blocks

variable {limit bits fuel kind : Nat} {literals distances : Code} {s t : BitSource}
  {out content : ByteArray}

theorem inflateSymbols_complete_iff :
    inflateSymbols literals distances limit (fuel + 1) s out = (.complete t, content) ↔
      ∃ symbol m, literals.next s = .ok (symbol, m) ∧
        if symbol < 256 then out.size < limit ∧
          inflateSymbols literals distances limit fuel m (out.push (.ofNat symbol)) =
            (.complete t, content)
        else if symbol = 256 then out = content ∧ m = t
        else ∃ length distance n, readCopy distances (symbol - 257) m = .ok (length, distance, n) ∧
          (distance ≤ out.size ∧ out.size + length ≤ limit) ∧
            inflateSymbols literals distances limit fuel n (copyBack out distance length) =
              (.complete t, content) := by
  rw [inflateSymbols_succ]
  rcases literals.next s with e | ⟨symbol, m⟩
  · exact ⟨nofun, nofun⟩
  simp only [Except.ok.injEq, Prod.mk.injEq, ↓existsAndEq, true_and]
  split_ifs with hbyte hfull hend
  · exact iff_of_false nofun fun h => absurd hfull (Nat.not_le.2 h.1)
  · exact ⟨fun h => ⟨Nat.lt_of_not_le hfull, h⟩, fun h => h.2⟩
  · rw [Prod.mk.injEq, Ending.complete.injEq, and_comm]
  · rcases readCopy distances (symbol - 257) m with e | ⟨length, distance, n⟩
    · exact iff_of_false nofun fun ⟨_, _, _, h, _⟩ => nomatch h
    simp only [Except.ok.injEq, Prod.mk.injEq, ↓existsAndEq, true_and]
    split_ifs with hfar hfull
    · exact iff_of_false nofun fun h => absurd hfar (Nat.not_lt.2 h.1.1)
    · exact iff_of_false nofun fun h => absurd hfull (Nat.not_lt.2 h.1.2)
    · exact ⟨fun h => ⟨⟨Nat.le_of_not_lt hfar, Nat.le_of_not_lt hfull⟩, h⟩, fun h => h.2⟩

theorem local_inflateSymbols (literals distances : Code) (limit fuel : Nat)
    (out content : ByteArray) :
    Local fun s t =>
      inflateSymbols literals distances limit fuel s out = (.complete t, content) := by
  induction fuel generalizing out with
  | zero => exact .of_not fun _ _ => nofun
  | succ fuel ih =>
    refine .congr (fun s t => inflateSymbols_complete_iff)
      (.ex fun symbol => (local_next literals symbol).comp ?_)
    split_ifs with hbyte hend
    · exact .and fun _ => ih _
    · exact .and fun _ => .refl
    · exact .ex fun length => .ex fun distance =>
        (local_readCopy distances (symbol - 257) length distance).comp (.and fun _ => ih _)

theorem inflateStored_complete_iff :
    inflateStored limit s out = (.complete t, content) ↔ ∃ l₀ l₁ c₀ c₁ data,
      (Bytes.u16At [c₀, c₁] 0 = ~~~ Bytes.u16At [l₀, l₁] 0 ∧
        data.length = (Bytes.u16At [l₀, l₁] 0).toNat ∧
        ¬ (limit < out.size + data.length ∧ limit ≤ (out ++ data.toByteArray).size) ∧
        out ++ data.toByteArray = content) ∧
      ∃ m, ((s.used = 0 ∨ s.bytes ≠ []) ∧ s.align = m) ∧
        m = ⟨[l₀, l₁, c₀, c₁] ++ data ++ t.bytes, 0⟩ ∧ t.used = 0 := by
  unfold inflateStored
  constructor
  · intro h
    split at h
    · rename_i l₀ l₁ c₀ c₁ rest hbytes
      dsimp only at h
      split_ifs at h with hcomplement hfull hshort
      · cases h
      · cases h
      · cases h
      · rw [Prod.mk.injEq, Ending.complete.injEq] at h
        obtain ⟨rfl, rfl⟩ := h
        have hlen := Nat.le_antisymm (List.length_take_le ..) (Nat.le_of_not_lt hshort)
        have hthere : s.used = 0 ∨ s.bytes ≠ [] := by
          by_contra hnone
          rw [not_or, not_not] at hnone
          rw [align, if_neg hnone.1, hnone.2] at hbytes
          cases hbytes
        refine ⟨l₀, l₁, c₀, c₁, _, ⟨not_not.1 hcomplement, hlen, ?_, rfl⟩, _, ⟨hthere, rfl⟩, ?_,
          rfl⟩
        · rwa [hlen]
        · rw [List.append_assoc, List.take_append_drop, ← used_align s]
          exact congrArg (BitSource.mk · s.align.used) hbytes
    · cases h
  · rintro ⟨l₀, l₁, c₀, c₁, data, ⟨hcomplement, hlen, hfull, rfl⟩, m, ⟨-, rfl⟩, hm, ht⟩
    have hbytes : s.align.bytes = l₀ :: l₁ :: c₀ :: c₁ :: (data ++ t.bytes) := by
      rw [hm, List.append_assoc]
      rfl
    rw [hbytes]
    dsimp only
    rw [List.take_left' hlen, List.drop_left' hlen, ← hlen, if_neg (not_not.2 hcomplement),
      if_neg hfull, if_neg (Nat.lt_irrefl _), ← ht]

theorem local_inflateStored (limit : Nat) (out content : ByteArray) :
    Local fun s t => inflateStored limit s out = (.complete t, content) :=
  .congr (fun _ _ => inflateStored_complete_iff)
    (.ex fun l₀ => .ex fun l₁ => .ex fun c₀ => .ex fun c₁ => .ex fun data =>
      .and fun _ => local_align.comp (local_bytes ([l₀, l₁, c₀, c₁] ++ data)))

theorem local_inflateBlock (limit bits kind : Nat) (out content : ByteArray) :
    Local fun s t => inflateBlock limit bits kind s out = (.complete t, content) := by
  rcases kind with _ | _ | _ | kind
  · exact local_inflateStored limit out content
  · simp only [inflateBlock]
    exact local_inflateSymbols fixedLiterals fixedDistances limit (bits + 1) out content
  · refine .congr (fun s t => ?_) (.ex fun c => .ex fun d => (local_dynamicCodes c d).comp
      (local_inflateSymbols c d limit (bits + 1) out content))
    rw [inflateBlock]
    rcases dynamicCodes s with e | ⟨c, d, m⟩ <;> simp
  · exact .of_not fun _ _ => by simp [inflateBlock]

/-- **What a stream that ends is decoded to is decided by the bits up to the end of its last
block.** -/
theorem local_inflateBlocks (limit bits fuel : Nat) (out content : ByteArray) :
    Local fun s t => inflateBlocks limit bits fuel s out = (.complete t, content) := by
  induction fuel generalizing out with
  | zero => exact .of_not fun _ _ => nofun
  | succ fuel ih =>
    refine .congr (fun s t => ?_) (.ex fun last => .ex fun kind =>
      (local_readBlockStart last kind).comp (.ex fun block =>
        (local_inflateBlock limit bits kind out block).comp
          (.ite (p := last = true) (fun _ => .and fun _ : block = content => .refl)
            fun _ => ih block)))
    rw [inflateBlocks]
    rcases readBlockStart s with e | ⟨last, kind, m⟩
    · simp
    · simp only [Except.ok.injEq, Prod.mk.injEq, ↓existsAndEq, true_and]
      rcases inflateBlock limit bits kind m out with ⟨u | _ | _, block⟩
      · simp only [Prod.mk.injEq, Ending.complete.injEq, ↓existsAndEq, true_and]
        split_ifs
        · rw [Prod.mk.injEq, Ending.complete.injEq, and_comm]
        · rfl
      · simp
      · simp

/-- The bits behind the last block of a stream that ends. -/
def Ending.restBits : Ending → List Nat
  | .complete rest => rest.bits
  | .full | .fault _ => []

/-- **What follows the last block is not looked at.** -/
theorem inflateWindows_of_prefix {stored : Bytes} {rest : BitSource}
    (h : inflateWindows limit stored = (.complete rest, content)) :
    ∃ bits, (BitSource.mk stored 0).bits = bits ++ rest.bits ∧
      ∀ altered : Bytes, altered.length = stored.length →
        bits <+: (BitSource.mk altered 0).bits →
          ∃ rest', inflateWindows limit altered = (.complete rest', content) := by
  obtain ⟨bits, htakes, hsame⟩ := local_inflateBlocks _ _ _ _ _ (Nat.zero_lt_succ 7) h
  refine ⟨bits, (htakes.bits_eq (Nat.zero_lt_succ 7)).1, fun altered hlength hprefix => ?_⟩
  obtain ⟨rest', htakes'⟩ := Takes.exists_of_prefix (Nat.zero_lt_succ 7) hprefix
  have hleft : (BitSource.mk altered 0).left = (BitSource.mk stored 0).left := by
    simp only [left, hlength]
  refine ⟨rest', ?_⟩
  unfold inflateWindows
  dsimp only
  rw [hleft]
  have hused : (BitSource.mk altered 0).used = (BitSource.mk stored 0).used := rfl
  exact hsame hused htakes'

end Blocks

end PakIndex.Deflate
