import PakIndex.Deflate.Inflate
import Mathlib.Tactic

/-!
# What inflation accepts

* `Deflate.inflateSymbols_succ`: a block of symbols, one symbol at a time.
* `Deflate.le_of_inflateBlocks_full`: inflation stops for want of room only behind the window.
* **`Deflate.inflate_eq_ok_iff`**: inflation yields less than was asked for if and only if the
  stream ends there.
-/

namespace PakIndex

theorem size_copyBack (out : ByteArray) (distance length : Nat) :
    (copyBack out distance length).size = out.size + length := by
  induction length generalizing out with
  | zero => rfl
  | succ length ih => rw [copyBack, ih, ByteArray.size_push, Nat.add_assoc, Nat.add_comm 1]

namespace Deflate

variable {limit bits fuel kind : Nat} {literals distances : Code} {s : BitSource}
  {out content : ByteArray}

set_option maxRecDepth 2000 in
theorem inflateSymbols_succ : inflateSymbols literals distances limit (fuel + 1) s out =
    match literals.next s with
    | .error e => (.fault e, out)
    | .ok (symbol, s) =>
      if symbol < 256 then
        if limit ≤ out.size then (.full, out)
        else inflateSymbols literals distances limit fuel s (out.push (.ofNat symbol))
      else if symbol = 256 then (.complete s, out)
      else
        match readCopy distances (symbol - 257) s with
        | .error e => (.fault e, out)
        | .ok (length, distance, s) =>
          if out.size < distance then (.fault .corrupt, out)
          else if limit < out.size + length then (.full, copyBack out distance length)
          else inflateSymbols literals distances limit fuel s (copyBack out distance length) := by
  -- stated once, since to unfold the definition is to count down from 257
  rfl

/-! ## Want of room -/

theorem le_of_inflateSymbols_full
    (h : inflateSymbols literals distances limit fuel s out = (.full, content)) :
    limit ≤ content.size := by
  induction fuel generalizing s out with
  | zero => cases h
  | succ fuel ih =>
    rw [inflateSymbols_succ] at h
    rcases hnext : literals.next s with e | ⟨symbol, m⟩ <;> rw [hnext] at h <;> dsimp only at h
    · cases h
    split_ifs at h with hbyte hfull hend
    · cases h
      exact hfull
    · exact ih h
    · cases h
    · rcases hcopy : readCopy distances (symbol - 257) m with e | ⟨length, distance, n⟩ <;>
        rw [hcopy] at h <;> dsimp only at h
      · cases h
      split_ifs at h with hfar hfull
      · cases h
      · cases h
        rw [size_copyBack]
        exact Nat.le_of_lt hfull
      · exact ih h

theorem le_of_inflateStored_full (h : inflateStored limit s out = (.full, content)) :
    limit ≤ content.size := by
  unfold inflateStored at h
  split at h
  · dsimp only at h
    split_ifs at h with hcomplement hfull hshort
    · cases h
    · cases h
      exact hfull.2
    · cases h
    · cases h
  · cases h

theorem le_of_inflateBlock_full (h : inflateBlock limit bits kind s out = (.full, content)) :
    limit ≤ content.size := by
  rcases kind with _ | _ | _ | kind
  · exact le_of_inflateStored_full h
  · simp only [inflateBlock] at h
    exact le_of_inflateSymbols_full h
  · simp only [inflateBlock] at h
    rcases hcodes : dynamicCodes s with e | ⟨c, d, m⟩ <;> rw [hcodes] at h <;> dsimp only at h
    · cases h
    · exact le_of_inflateSymbols_full h
  · cases h

theorem le_of_inflateBlocks_full (h : inflateBlocks limit bits fuel s out = (.full, content)) :
    limit ≤ content.size := by
  induction fuel generalizing s out with
  | zero => cases h
  | succ fuel ih =>
    rw [inflateBlocks] at h
    rcases hstart : readBlockStart s with e | ⟨last, kind, m⟩ <;> rw [hstart] at h <;>
      dsimp only at h
    · cases h
    rcases hblock : inflateBlock limit bits kind m out with ⟨u | _ | _, block⟩
    · simp only [hblock] at h
      split_ifs at h
      · cases h
      · exact ih h
    · simp only [hblock, Prod.mk.injEq, true_and] at h
      rw [← h]
      exact le_of_inflateBlock_full hblock
    · simp only [hblock, Prod.mk.injEq, reduceCtorEq, false_and] at h

/-! ## Streams that end -/

theorem le_windowEnd (limit : Nat) : limit ≤ windowEnd limit := by
  have hmod := Nat.mod_lt (limit + windowSize - 1) (show windowSize > 0 by decide)
  have hdiv := Nat.div_add_mod (limit + windowSize - 1) windowSize
  have hpos : 0 < windowSize := by decide
  rw [Nat.mul_comm] at hdiv
  rw [windowEnd]
  omega

/-- **Inflation yields less than was asked for if and only if the stream ends there.** -/
theorem inflate_eq_ok_iff {stored content : Bytes} (hshort : content.length < limit) :
    inflate limit stored = .ok content ↔
      ∃ rest, inflateWindows limit stored = (.complete rest, content.toByteArray) := by
  have hcut (out : ByteArray) (hthere : limit ≤ out.size) :
      out.data.toList.take limit ≠ content := by
    rintro rfl
    rw [List.length_take_of_le (by simpa using hthere)] at hshort
    exact Nat.lt_irrefl _ hshort
  unfold inflate
  rcases hrun : inflateWindows limit stored with ⟨rest | _ | _ | _, out⟩ <;> dsimp only
  · rw [Except.ok.injEq]
    constructor
    · intro hout
      have hlt : out.size < limit := Nat.lt_of_not_le fun hthere => hcut out hthere hout
      rw [List.take_of_length_le (by simpa using hlt.le)] at hout
      refine ⟨rest, congrArg (Ending.complete rest, ·) (ByteArray.ext ?_)⟩
      rw [← hout, List.data_toByteArray, Array.toArray_toList]
    · rintro ⟨_, ⟨⟩⟩
      rw [List.data_toByteArray, List.take_of_length_le hshort.le]
  · have hroom := (le_windowEnd limit).trans (le_of_inflateBlocks_full hrun)
    exact iff_of_false (fun h => hcut out hroom (Except.ok.inj h)) nofun
  · refine iff_of_false (fun h => ?_) nofun
    split_ifs at h with henough
    simp only [Bool.and_eq_true, decide_eq_true_eq] at henough
    exact hcut out henough.1 (Except.ok.inj h)
  · refine iff_of_false (fun h => ?_) nofun
    split_ifs at h with hmissing
    exact hcut out (Nat.le_of_not_lt hmissing) (Except.ok.inj h)

end Deflate

end PakIndex
