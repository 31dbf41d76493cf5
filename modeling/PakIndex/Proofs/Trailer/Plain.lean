import PakIndex.Proofs.Trailer.Search

/-!
# The search without windows

* `Stream.trailerPositions`: where a trailer may stand.
* `Stream.mem_trailerPositions`: these are the positions of trailers behind which no more than the
  longest comment follows.
* `searchBack_ok`: no read or slice of the search leaves the stream.
* **`locate_plain`**: what the last of these positions decides, whatever the windows of the search.
-/

namespace PakIndex

variable {s : Stream}

/-- The positions at which the trailer signature stands, from the one that the longest comment
leaves for it to the last one with room for a trailer. -/
def Stream.trailerPositions (s : Stream) : Set Nat :=
  {p | s.size - 22 - 65535 ≤ p ∧ p ≤ s.size - 22 ∧ s.toList.field p 4 = Trailer.signature}

theorem Stream.mem_trailerPositions {p : Nat} (h : 22 ≤ s.size) :
    p ∈ s.trailerPositions ↔ s.size ≤ p + 22 + maxCommentLength ∧ TrailerAt s p := by
  have hfixed : Trailer.fixedSize = 22 := rfl
  have hmax : maxCommentLength = 65535 := rfl
  constructor
  · rintro ⟨hfloor, hroom, hsig⟩
    exact ⟨by omega, by omega, hsig⟩
  · rintro ⟨hnear, hroom, hsig⟩
    exact ⟨by omega, by omega, hsig⟩

/-- **No read or slice of the search leaves the stream**, whatever the windows. -/
theorem searchBack_ok {width floor bound : Nat} (hw : 0 < width) (hs : 22 ≤ s.size)
    (hb : bound ≤ s.size) : ∃ found, searchBack s width floor bound = .ok found := by
  rcases searchBack_cases width floor bound hw hs hb with ⟨hr, -⟩ | ⟨p, -, -, -, hr, -⟩
  · exact ⟨_, hr⟩
  · exact ⟨_, hr⟩

theorem locate_of_large (h : 2 ^ 31 < s.size) : locate s = .error (.fileTooLarge s.size) := by
  have hlarge : s.size > maxArchiveSize := h
  rw [locate, if_pos hlarge]
  rfl

theorem locate_of_small (h : s.size < 22) : locate s = .error (.fileTooSmall s.size) := by
  have hlarge : ¬ s.size > maxArchiveSize := by
    have hmax : maxArchiveSize = 2 ^ 31 := rfl
    omega
  have hsmall : s.size < Trailer.fixedSize := h
  simp only [locate, if_neg hlarge, if_pos hsmall]
  rfl

theorem locate_of_positions (hsmall : 22 ≤ s.size) (hlarge : s.size ≤ 2 ^ 31) :
    (s.trailerPositions = ∅ ∧ locate s = .error .noTrailerFound) ∨
    ∃ pos t, IsGreatest s.trailerPositions pos ∧ Trailer.parse (s.toList.field pos 22) = .ok t ∧
      locate s = if t.commentLength.toNat = s.size - pos - 22 then .ok ⟨t, pos, s.size⟩
        else .error (.commentLengthMismatch t.commentLength (s.size - pos - 22)) := by
  rcases locate_of_size hlarge hsmall with
    ⟨hr, hnone⟩ | ⟨pos, t, hat, hnear, ht, hlast, hr⟩
  · refine .inl ⟨Set.eq_empty_of_forall_notMem fun p hp => ?_, hr⟩
    obtain ⟨hnear, hat⟩ := (Stream.mem_trailerPositions hsmall).mp hp
    exact hnone p hnear hat
  · refine .inr ⟨pos, t, ⟨(Stream.mem_trailerPositions hsmall).mpr ⟨hnear, hat⟩, ?_⟩, ht, ?_⟩
    · intro q hq
      by_contra hlt
      exact hlast q (Nat.not_le.mp hlt) ((Stream.mem_trailerPositions hsmall).mp hq).2
    · have hroom : pos + 22 ≤ s.size := hat.1
      rcases hr with ⟨hr, hc⟩ | ⟨hr, hc⟩
      · change pos + 22 + t.commentLength.toNat = s.size at hc
        rw [hr, if_pos (by omega)]
      · change pos + 22 + t.commentLength.toNat ≠ s.size at hc
        rw [hr, if_neg (by omega)]
        rfl

theorem class_of_locate_error {e : Error} (hsmall : 22 ≤ s.size) (hlarge : s.size ≤ 2 ^ 31)
    (h : locate s = .error e) : e.class = .structural := by
  rcases locate_of_positions hsmall hlarge with ⟨-, hr⟩ | ⟨pos, t, -, -, hr⟩
  · cases hr.symm.trans h
    rfl
  · rw [hr] at h
    split_ifs at h
    cases h
    rfl

theorem locate_eq_fileTooLarge_iff {n : Nat} :
    locate s = .error (.fileTooLarge n) ↔ n = s.size ∧ 2 ^ 31 < s.size := by
  constructor
  · intro h
    by_cases hsmall : s.size < 22
    · cases (locate_of_small hsmall).symm.trans h
    by_cases hlarge : 2 ^ 31 < s.size
    · cases (locate_of_large hlarge).symm.trans h
      exact ⟨rfl, hlarge⟩
    · cases class_of_locate_error (Nat.not_lt.mp hsmall) (Nat.not_lt.mp hlarge) h
  · rintro ⟨rfl, hlarge⟩
    exact locate_of_large hlarge

theorem locate_eq_fileTooSmall_iff {n : Nat} :
    locate s = .error (.fileTooSmall n) ↔ n = s.size ∧ s.size < 22 := by
  constructor
  · intro h
    by_cases hsmall : s.size < 22
    · cases (locate_of_small hsmall).symm.trans h
      exact ⟨rfl, hsmall⟩
    by_cases hlarge : 2 ^ 31 < s.size
    · cases (locate_of_large hlarge).symm.trans h
    · cases class_of_locate_error (Nat.not_lt.mp hsmall) (Nat.not_lt.mp hlarge) h
  · rintro ⟨rfl, hsmall⟩
    exact locate_of_small hsmall

/-- **The search by windows is the plain search.** A file of more than 2 GiB is too large, and one
without room for a trailer too small. In every other file the greatest position at which the trailer
signature stands decides, as far as the longest comment reaches back: its trailer is located if its
comment reaches exactly to the end of the file. No read or slice leaves the file on the way,
whatever the width of the windows. -/
theorem locate_plain (s : Stream) :
    (∀ n, locate s = .error (.fileTooLarge n) ↔ n = s.size ∧ 2 ^ 31 < s.size) ∧
    (∀ n, locate s = .error (.fileTooSmall n) ↔ n = s.size ∧ s.size < 22) ∧
    (22 ≤ s.size ∧ s.size ≤ 2 ^ 31 →
      (s.trailerPositions = ∅ ∧ locate s = .error .noTrailerFound) ∨
      ∃ pos t, IsGreatest s.trailerPositions pos ∧
        Trailer.parse (s.toList.field pos 22) = .ok t ∧
        locate s = if t.commentLength.toNat = s.size - pos - 22 then .ok ⟨t, pos, s.size⟩
          else .error (.commentLengthMismatch t.commentLength (s.size - pos - 22))) ∧
    ∀ width floor bound, 0 < width → 22 ≤ s.size → bound ≤ s.size →
      ∃ found, searchBack s width floor bound = .ok found := by
  refine ⟨fun n => locate_eq_fileTooLarge_iff, fun n => locate_eq_fileTooSmall_iff, ?_, ?_⟩
  · rintro ⟨hsmall, hlarge⟩
    exact locate_of_positions hsmall hlarge
  · intro width floor bound hw hs hb
    exact searchBack_ok hw hs hb

end PakIndex
