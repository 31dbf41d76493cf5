import PakIndex.Trailer.Search
import PakIndex.Proofs.Layout.Record
import PakIndex.Proofs.Stream

/-!
# The search for the trailer

* `TrailerAt`: the signature stands at a position, with room for a trailer.
* **`searchBack_cases`**: the search finds the last such position in its range, and no read of it
  leaves the stream.
* **`locate_eq_ok_iff`**: which trailer is located.
* `locate_of_last`, `locate_error`: what the last trailer in the file decides, and how locating
  fails.
* **`locate_written_iff`**: whether a trailer that was written with its comment is located.
-/

namespace PakIndex

variable {s : Stream}

/-- Whether the trailer signature stands at a position with room for a whole trailer. -/
def TrailerAt (s : Stream) (p : Nat) : Prop :=
  p + Trailer.fixedSize ≤ s.size ∧ s.toList.field p 4 = Trailer.signature

/-! ## One window -/

theorem lastSignature_cases (window : Bytes) (count : Nat)
    (h : count = 0 ∨ count + 3 ≤ window.length) :
    (lastSignature window count = .ok none ∧
      ∀ j < count, window.field j 4 ≠ Trailer.signature) ∨
    ∃ i < count, lastSignature window count = .ok (some i) ∧
      window.field i 4 = Trailer.signature ∧
      ∀ j, i < j → j < count → window.field j 4 ≠ Trailer.signature := by
  induction count with
  | zero => exact .inl ⟨rfl, nofun⟩
  | succ count ih =>
    have hcut : window.cut count 4 = .ok (window.field count 4) := Bytes.cut_of_le (by omega)
    rw [lastSignature, hcut]
    show (if window.field count 4 = Trailer.signature then _ else _) = _ ∧ _ ∨ _
    by_cases hsig : window.field count 4 = Trailer.signature
    · rw [if_pos hsig]
      refine .inr ⟨count, by omega, ?_, hsig, fun j h₁ h₂ => by omega⟩
      show (if window.field count 4 = Trailer.signature then _ else _) = _
      rw [if_pos hsig]
    · rw [if_neg hsig]
      rcases ih (by omega) with ⟨hr, hnone⟩ | ⟨i, hi, hr, hfound, hlast⟩
      · refine .inl ⟨hr, fun j hj => ?_⟩
        rcases Nat.lt_succ_iff_lt_or_eq.mp hj with hj | rfl
        · exact hnone j hj
        · exact hsig
      · refine .inr ⟨i, by omega, ?_, hfound, fun j h₁ h₂ => ?_⟩
        · show (if window.field count 4 = Trailer.signature then _ else _) = _
          rw [if_neg hsig, hr]
        · rcases Nat.lt_succ_iff_lt_or_eq.mp h₂ with hj | rfl
          · exact hlast j h₁ hj
          · exact hsig

/-! ## All windows -/

/-- **The search finds the last trailer of its range**, and no read of it leaves the stream. -/
theorem searchBack_cases (width floor bound : Nat) (hw : 0 < width)
    (hs : Trailer.fixedSize ≤ s.size) (hb : bound ≤ s.size) :
    (searchBack s width floor bound = .ok none ∧
      ∀ p, floor ≤ p → p < bound → ¬ TrailerAt s p) ∨
    ∃ p, floor ≤ p ∧ p < bound ∧ TrailerAt s p ∧
      searchBack s width floor bound = .ok (some (p, s.toList.field p Trailer.fixedSize)) ∧
      ∀ q, p < q → q < bound → ¬ TrailerAt s q := by
  induction bound using Nat.strong_induction_on with
  | _ bound ih =>
    rw [searchBack]
    by_cases hstop : bound ≤ floor ∨ width = 0
    · rw [dif_pos hstop]
      exact .inl ⟨rfl, fun p h₁ h₂ => by omega⟩
    · rw [dif_neg hstop]
      obtain ⟨start, hstart⟩ : ∃ start, start = max (bound - width) floor := ⟨_, rfl⟩
      obtain ⟨len, hlen⟩ : ∃ len, len = min (bound + Trailer.fixedSize - 1) s.size - start :=
        ⟨_, rfl⟩
      obtain ⟨count, hcount⟩ : ∃ n, n = min bound (s.size - Trailer.fixedSize + 1) - start :=
        ⟨_, rfl⟩
      have hfixed : Trailer.fixedSize = 22 := rfl
      have hread : s.read start len = .ok (s.toList.field start len) :=
        Stream.read_of_le (by omega)
      have hwindow : (s.toList.field start len).length = len := Stream.length_field (by omega)
      -- A position of the window is one of the stream.
      have hfield : ∀ i < count, (s.toList.field start len).field i 4 =
          s.toList.field (start + i) 4 := fun i hi => Bytes.field_field (by omega)
      have hlater : ∀ q, start ≤ q → q < bound → TrailerAt s q → q - start < count ∧
          (s.toList.field start len).field (q - start) 4 = Trailer.signature := by
        rintro q h₁ h₂ ⟨h₃, h₄⟩
        have hq : q - start < count := by omega
        refine ⟨hq, ?_⟩
        rw [hfield _ hq, Nat.add_sub_cancel' h₁, h₄]
      simp only [← hstart, ← hlen, ← hcount, hread]
      rcases lastSignature_cases (s.toList.field start len) count (by omega) with
        ⟨hr, hnone⟩ | ⟨i, hi, hr, hfound, hlast⟩
      · simp only [hr]
        rcases ih start (by omega) (by omega) with ⟨hr', hnone'⟩ | ⟨p, h₁, h₂, h₃, hr', hlast'⟩
        · refine .inl ⟨hr', fun p h₁ h₂ hp => ?_⟩
          by_cases hp' : p < start
          · exact hnone' p h₁ hp' hp
          · obtain ⟨hc, hsig⟩ := hlater p (by omega) h₂ hp
            exact hnone _ hc hsig
        · refine .inr ⟨p, h₁, by omega, h₃, hr', fun q h₄ h₅ hq => ?_⟩
          by_cases hq' : q < start
          · exact hlast' q h₄ hq' hq
          · obtain ⟨hc, hsig⟩ := hlater q (by omega) h₅ hq
            exact hnone _ hc hsig
      · refine .inr ⟨start + i, by omega, by omega, ⟨by omega, ?_⟩, ?_, fun q h₁ h₂ hq => ?_⟩
        · rw [← hfield i hi, hfound]
        · simp only [hr]
          rw [Bytes.cut_of_le (by omega), Bytes.field_field (by omega)]
          rfl
        · obtain ⟨hc, hsig⟩ := hlater q (by omega) h₂ hq
          exact hlast _ (by omega) hc hsig

/-! ## Locating the trailer -/

theorem parse_of_trailerAt {p : Nat} (h : TrailerAt s p) :
    ∃ t, Trailer.parse (s.toList.field p Trailer.fixedSize) = .ok t := by
  have hlen : (s.toList.field p Trailer.fixedSize).length = Trailer.fixedSize :=
    Stream.length_field h.1
  have htake : (s.toList.field p Trailer.fixedSize).take 4 = Trailer.signature := by
    rw [← h.2]
    exact Bytes.field_field (i := 0) (n := 4) (by decide)
  rw [Trailer.parse, if_neg (not_or.mpr ⟨by omega, not_not.mpr htake⟩)]
  exact ⟨_, rfl⟩

theorem locate_of_size (h₁ : s.size ≤ maxArchiveSize) (h₂ : Trailer.fixedSize ≤ s.size) :
    (locate s = .error .noTrailerFound ∧
      ∀ p, s.size ≤ p + 22 + maxCommentLength → ¬ TrailerAt s p) ∨
    ∃ p t, TrailerAt s p ∧ s.size ≤ p + 22 + maxCommentLength ∧
      Trailer.parse (s.toList.field p Trailer.fixedSize) = .ok t ∧
      (∀ q, p < q → ¬ TrailerAt s q) ∧
      ((locate s = .ok ⟨t, p, s.size⟩ ∧ p + Trailer.fixedSize + t.commentLength.toNat = s.size) ∨
        (locate s = .error
            (.commentLengthMismatch t.commentLength (s.size - p - Trailer.fixedSize)) ∧
          p + Trailer.fixedSize + t.commentLength.toNat ≠ s.size)) := by
  have hfixed : Trailer.fixedSize = 22 := rfl
  have hsmall : ¬ s.size > maxArchiveSize := by omega
  have hlarge : ¬ s.size < Trailer.fixedSize := by omega
  rcases searchBack_cases searchWindow (s.size - (Trailer.fixedSize + maxCommentLength)) s.size
    (by decide) h₂ le_rfl with
    ⟨hr, hnone⟩ | ⟨p, hfloor, hp, hat, hr, hlast⟩
  · refine .inl ⟨?_, fun p hp hat => ?_⟩
    · simp only [locate, if_neg hsmall, if_neg hlarge, hr]
      rfl
    · have := hat.1
      exact hnone p (by omega) (by omega) hat
  · obtain ⟨t, ht⟩ := parse_of_trailerAt hat
    have hlast' : ∀ q, p < q → ¬ TrailerAt s q := fun q hq hat' => by
      have := hat'.1
      exact hlast q hq (by omega) hat'
    have hlocate : locate s = if t.commentLength.toNat ≠ s.size - p - Trailer.fixedSize then
        .error (.commentLengthMismatch t.commentLength (s.size - p - Trailer.fixedSize))
        else .ok ⟨t, p, s.size⟩ := by
      simp only [locate, if_neg hsmall, if_neg hlarge, hr]
      show (Trailer.parse (s.toList.field p Trailer.fixedSize)).bind _ = _
      rw [ht]
      rfl
    have hroom := hat.1
    refine .inr ⟨p, t, hat, by omega, ht, hlast', ?_⟩
    rw [hlocate]
    by_cases hc : t.commentLength.toNat = s.size - p - Trailer.fixedSize
    · exact .inl ⟨if_neg (not_not.mpr hc), by omega⟩
    · exact .inr ⟨if_pos hc, by omega⟩

theorem locate_of_last {p : Nat} {t : Trailer} (hsmall : s.size ≤ maxArchiveSize)
    (hat : TrailerAt s p) (hlast : ∀ q, p < q → ¬ TrailerAt s q)
    (hnear : s.size ≤ p + 22 + maxCommentLength)
    (ht : Trailer.parse (s.toList.field p Trailer.fixedSize) = .ok t) :
    locate s = if p + Trailer.fixedSize + t.commentLength.toNat = s.size then .ok ⟨t, p, s.size⟩
      else .error (.commentLengthMismatch t.commentLength (s.size - p - Trailer.fixedSize)) := by
  have hroom := hat.1
  rcases locate_of_size hsmall (by omega) with ⟨-, hnone⟩ | ⟨p', t', hat', -, ht', hlast', h⟩
  · exact absurd hat (hnone p hnear)
  · obtain rfl : p = p' := by
      by_contra hne
      rcases Nat.lt_or_gt_of_ne hne with hlt | hgt
      · exact hlast p' hlt hat'
      · exact hlast' p hgt hat
    cases ht.symm.trans ht'
    rcases h with ⟨h, hc⟩ | ⟨h, hc⟩
    · rw [h, if_pos hc]
    · rw [h, if_neg hc]

theorem locate_error {e : Error} (h : locate s = .error e) :
    e.class = .structural ∨ e = .fileTooSmall s.size ∨ e = .fileTooLarge s.size := by
  by_cases h₁ : s.size > maxArchiveSize
  · rw [locate, if_pos h₁] at h
    cases h
    exact .inr (.inr rfl)
  · by_cases h₂ : s.size < Trailer.fixedSize
    · simp only [locate, if_neg h₁, if_pos h₂] at h
      cases h
      exact .inr (.inl rfl)
    · rcases locate_of_size (s := s) (by omega) (by omega) with
        ⟨h', -⟩ | ⟨p, t, -, -, -, -, ⟨h', -⟩ | ⟨h', -⟩⟩
      · rw [h'] at h
        cases h
        exact .inl rfl
      · rw [h'] at h
        cases h
      · rw [h'] at h
        cases h
        exact .inl rfl

/-- **Which trailer is located**: the last that stands in the file, if its comment reaches to the
end of the file. -/
theorem locate_eq_ok_iff {l : LocatedTrailer} : locate s = .ok l ↔
    s.size ≤ maxArchiveSize ∧ TrailerAt s l.offset ∧ (∀ q, l.offset < q → ¬ TrailerAt s q) ∧
      Trailer.parse (s.toList.field l.offset Trailer.fixedSize) = .ok l.record ∧
      l.offset + Trailer.fixedSize + l.record.commentLength.toNat = s.size ∧
      l.fileSize = s.size := by
  by_cases h₁ : s.size > maxArchiveSize
  · constructor
    · intro h
      rw [locate, if_pos h₁] at h
      cases h
    · intro h
      omega
  · by_cases h₂ : s.size < Trailer.fixedSize
    · constructor
      · intro h
        simp only [locate, if_neg h₁, if_pos h₂] at h
        cases h
      · rintro ⟨-, hat, -⟩
        have := hat.1
        omega
    · have h₁ : s.size ≤ maxArchiveSize := by omega
      constructor
      · intro h
        rcases locate_of_size h₁ (by omega) with
          ⟨h', -⟩ | ⟨p, t, hat, -, ht, hlast, ⟨h', hc⟩ | ⟨h', -⟩⟩
        · rw [h'] at h
          cases h
        · rw [h'] at h
          cases h
          exact ⟨h₁, hat, hlast, ht, hc, rfl⟩
        · rw [h'] at h
          cases h
      · rintro ⟨-, hat, hlast, ht, hc, hsize⟩
        obtain ⟨record, offset, fileSize⟩ := l
        simp only at hat hlast ht hc hsize
        have hlen := record.commentLength.toNat_lt
        have hmax : maxCommentLength = 0xFFFF := rfl
        have hfixed : Trailer.fixedSize = 22 := rfl
        rw [locate_of_last h₁ hat hlast (by omega) ht, if_pos hc, hsize]

theorem drop_of_locate {l : LocatedTrailer} (hl : locate s = .ok l) :
    s.toList.drop l.offset = l.record.encode ++ s.toList.drop (l.offset + 22) := by
  obtain ⟨-, -, -, hparse, -⟩ := locate_eq_ok_iff.mp hl
  have hfixed : Trailer.fixedSize = 22 := rfl
  rw [Trailer.encode_of_parse hparse, hfixed, Bytes.field, List.take_take, min_self,
    ← List.drop_drop, List.take_append_drop]

theorem field_of_locate {l : LocatedTrailer} (hl : locate s = .ok l) :
    s.toList.field (l.offset + 22) l.record.commentLength.toNat =
      s.toList.drop (l.offset + 22) := by
  obtain ⟨-, -, -, -, hend, -⟩ := locate_eq_ok_iff.mp hl
  have hfixed : Trailer.fixedSize = 22 := rfl
  refine List.take_of_length_le ?_
  rw [List.length_drop, Stream.length_toList]
  omega

theorem Trailer.field_ne_signature_of_notMem {bs : Bytes} {n k : Nat} (h : 0x50 ∉ bs.drop n)
    (hk : n ≤ k) : bs.field k 4 ≠ Trailer.signature := by
  intro heq
  have hhead : 0x50 ∈ bs.field k 4 := by
    rw [heq]
    decide
  have hmem : 0x50 ∈ bs.drop k := List.mem_of_mem_take hhead
  rw [← Nat.add_sub_cancel' hk, ← List.drop_drop] at hmem
  exact h (List.mem_of_mem_drop hmem)

/-- **Whether a written trailer is located**: no signature starts behind its own, in the trailer or
in the comment, as far as there is room for a trailer. -/
theorem locate_written_iff {pos : Nat} {t : Trailer} {comment : Bytes}
    (hsmall : s.size ≤ maxArchiveSize) (hdrop : s.toList.drop pos = t.encode ++ comment)
    (hlen : t.commentLength.toNat = comment.length) : locate s = .ok ⟨t, pos, s.size⟩ ↔
      ∀ k, 1 ≤ k → k ≤ comment.length →
        Bytes.field (t.encode ++ comment) k 4 ≠ Trailer.signature := by
  have hfixed : Trailer.fixedSize = 22 := rfl
  have hsize : s.size = pos + 22 + comment.length := by
    have hl := congrArg List.length hdrop
    rw [List.length_drop, Stream.length_toList, List.length_append, Trailer.length_encode] at hl
    omega
  have hfield : ∀ k n, s.toList.field (pos + k) n = Bytes.field (t.encode ++ comment) k n := by
    intro k n
    rw [Bytes.field, ← List.drop_drop, hdrop, Bytes.field]
  have hat : TrailerAt s pos := by
    refine ⟨by omega, (hfield 0 4).trans ?_⟩
    rw [Bytes.field, List.drop_zero, Trailer.take_encode]
  have hparse : Trailer.parse (s.toList.field pos Trailer.fixedSize) = .ok t := by
    have htrailer : s.toList.field pos Trailer.fixedSize = t.encode ++ [] := by
      rw [List.append_nil]
      exact (hfield 0 22).trans (Bytes.field_take (Trailer.length_encode t))
    rw [htrailer, Trailer.parse_encode]
  have hlater : (∀ q, pos < q → ¬ TrailerAt s q) ↔ ∀ k, 1 ≤ k → k ≤ comment.length →
      Bytes.field (t.encode ++ comment) k 4 ≠ Trailer.signature := by
    constructor
    · intro h k hk hk' heq
      refine h (pos + k) (by omega) ⟨by omega, ?_⟩
      rw [hfield, heq]
    · rintro h q hq ⟨hroom, hsig⟩
      obtain ⟨k, rfl⟩ := Nat.exists_eq_add_of_lt hq
      rw [Nat.add_assoc, hfield] at hsig
      exact h (k + 1) (by omega) (by omega) hsig
  rw [locate_eq_ok_iff, ← hlater]
  constructor
  · rintro ⟨-, -, h, -⟩
    exact h
  · intro h
    refine ⟨hsmall, hat, h, hparse, ?_, rfl⟩
    show pos + 22 + t.commentLength.toNat = s.size
    omega

end PakIndex
