import PakIndex.Entry.Locator
import PakIndex.Proofs.Layout.Record
import PakIndex.Proofs.Name.Fold
import PakIndex.Proofs.Steps
import PakIndex.Proofs.Stream

/-!
# Where payloads are located

* `Locator.check_eq_ok_iff`: the conditions on every entry.
* `Locator.dataOffsetIn_eq_ok_iff`: what is asked of a local header.
* **`Locator.locate_bound`**: a located payload ends before the directory.
* **`Locator.locate_eq_ok_iff_toNat`**: the place of a payload is the offset that is expected,
  without loss.
* `Locator.expectedOffset_written`, **`Locator.locate_written`**: the payload behind a written local
  header is located.
-/

namespace PakIndex.Locator

open Bytes

variable {l : Locator} {s : Stream} {e : Entry} {name : Bytes} {err : Error} {d : UInt32}

theorem check_error (h : l.check e name = .error err) : err.class = .crossValidation := by
  unfold check at h
  split_ifs at h <;> cases h <;> rfl

theorem check_eq_ok_iff : l.check e name = .ok () ↔
    e.headerOffset.toNat ≤ l.directoryOffset.toNat ∧
      (e.method.isStored → e.descriptor.compressedSize = e.descriptor.uncompressedSize) := by
  unfold check
  by_cases h₁ : e.headerOffset > l.directoryOffset
  · rw [if_pos h₁]
    refine ⟨nofun, fun h => ?_⟩
    have := UInt32.lt_iff_toNat_lt.mp h₁
    omega
  · rw [if_neg h₁]
    have h₁ : e.headerOffset.toNat ≤ l.directoryOffset.toNat :=
      UInt32.le_iff_toNat_le.mp (UInt32.not_lt.mp h₁)
    by_cases h₂ : e.method.isStored ∧ e.descriptor.compressedSize ≠ e.descriptor.uncompressedSize
    · rw [if_pos h₂]
      exact ⟨nofun, fun h => absurd (h.2 h₂.1) h₂.2⟩
    · rw [if_neg h₂]
      exact ⟨fun _ => ⟨h₁, fun hs => by_contra fun hne => h₂ ⟨hs, hne⟩⟩, fun _ => rfl⟩

/-! ## Located payloads -/

theorem inRange_iff {offset size : Nat} : l.inRange offset size = true ↔
    offset + size ≤ l.directoryOffset.toNat ∧ (size ≠ 0 → offset < l.directoryOffset.toNat) := by
  unfold inRange
  by_cases hs : size = 0
  · simp [hs]
  · rw [if_neg hs, Bool.and_eq_true, decide_eq_true_iff, decide_eq_true_iff]
    omega

theorem locate_eq_ok_iff : l.locate s e name = .ok d ↔ ∃ offset,
    l.expectedOffset s e name = .ok offset ∧ l.inRange offset e.compressedSize = true ∧
      d = .ofNat offset := by
  simp only [locate, bind_eq_ok_iff, guard_eq_ok_iff, not_not]
  constructor
  · rintro ⟨offset, ho, hr, ⟨⟩⟩
    exact ⟨offset, ho, hr, rfl⟩
  · rintro ⟨offset, ho, hr, rfl⟩
    exact ⟨offset, ho, hr, rfl⟩

/-- **The place of a payload** is the offset that is expected, if that is in range: the offset has
32 bits then. -/
theorem locate_eq_ok_iff_toNat : l.locate s e name = .ok d ↔
    l.expectedOffset s e name = .ok d.toNat ∧
      d.toNat + e.compressedSize ≤ l.directoryOffset.toNat ∧
        (e.compressedSize ≠ 0 → d.toNat < l.directoryOffset.toNat) := by
  rw [locate_eq_ok_iff]
  constructor
  · rintro ⟨offset, ho, hr, rfl⟩
    have hr := inRange_iff.mp hr
    have hlt : offset < 2 ^ 32 := by
      have := l.directoryOffset.toNat_lt
      omega
    rw [UInt32.toNat_ofNat_of_lt' hlt]
    exact ⟨ho, hr⟩
  · rintro ⟨ho, hr⟩
    exact ⟨d.toNat, ho, inRange_iff.mpr hr, UInt32.ofNat_toNat.symm⟩

theorem locate_bound (h : l.locate s e name = .ok d) :
    d.toNat + e.compressedSize ≤ l.directoryOffset.toNat :=
  (locate_eq_ok_iff_toNat.mp h).2.1

/-- **What is asked of a local header**, and where the payload behind it starts. -/
theorem dataOffsetIn_eq_ok_iff {bs : Bytes} {offset : Nat} :
    dataOffsetIn bs e name = .ok offset ↔ ∃ header, LocalHeader.parse bs = .ok (some header) ∧
      header.descriptor = e.descriptor ∧ header.method = e.method ∧
      header.nameLength.toNat = name.length ∧
      namesMatch (bs.drop LocalHeader.fixedSize) name = true ∧
      offset = e.headerOffset.toNat + 30 + name.length + header.extraLength.toNat := by
  have hfixed : LocalHeader.fixedSize = 30 := rfl
  rw [dataOffsetIn, bind_eq_ok_iff]
  constructor
  · rintro ⟨_ | header, hp, h⟩
    · cases h
    · simp only [guard_eq_ok_iff, not_not] at h
      obtain ⟨hd, hm, hl, hn, ⟨⟩⟩ := h
      exact ⟨header, hp, hd, hm, hl, hn, by rw [hl, hfixed]⟩
  · rintro ⟨header, hp, hd, hm, hl, hn, rfl⟩
    refine ⟨some header, hp, ?_⟩
    simp only [guard_eq_ok_iff, not_not]
    exact ⟨hd, hm, hl, hn, by rw [← hl, ← hfixed]; rfl⟩

theorem expectedOffset_ge {offset : Nat} (h : l.expectedOffset s e name = .ok offset) :
    e.headerOffset.toNat + 30 + name.length ≤ offset := by
  unfold expectedOffset at h
  by_cases henc : l.encryption.isEncrypted
  · rw [if_pos henc] at h
    cases h
    exact le_rfl
  · rw [if_neg henc] at h
    obtain ⟨bs, -, h⟩ := bind_eq_ok_iff.mp h
    obtain ⟨header, -, -, -, -, -, rfl⟩ := dataOffsetIn_eq_ok_iff.mp h
    exact Nat.le_add_right _ _

/-- **A located payload** stands behind header and name and ends before the directory. -/
theorem locate_within (h : l.locate s e name = .ok d) :
    e.headerOffset.toNat + 30 + name.length ≤ d.toNat ∧
      d.toNat + e.compressedSize ≤ l.directoryOffset.toNat ∧
        (0 < e.compressedSize → d < l.directoryOffset) := by
  obtain ⟨ho, hend, hstart⟩ := locate_eq_ok_iff_toNat.mp h
  refine ⟨expectedOffset_ge ho, hend, fun hsize => ?_⟩
  exact UInt32.lt_iff_toNat_lt.mpr (hstart (Nat.pos_iff_ne_zero.mp hsize))

theorem locate_congr {e' : Entry} (hoffset : e.headerOffset = e'.headerOffset)
    (hmethod : e.method = e'.method) (hdescriptor : e.descriptor = e'.descriptor) :
    l.locate s e name = l.locate s e' name := by
  obtain ⟨name₁, method₁, descriptor₁, offset₁, _⟩ := e
  obtain ⟨name₂, method₂, descriptor₂, offset₂, _⟩ := e'
  simp only at hoffset hmethod hdescriptor
  subst hoffset hmethod hdescriptor
  rfl

theorem locate_of_isEncrypted (henc : l.encryption.isEncrypted) (s s' : Stream) :
    l.locate s e name = l.locate s' e name := by
  rw [locate, locate, expectedOffset, expectedOffset, if_pos henc, if_pos henc]

/-! ## Written local headers -/

section Written

variable {h : LocalHeader} {raw rest : Bytes} {extraLength : Nat}

/-- **A written local header that repeats an entry is accepted.** -/
theorem dataOffsetIn_written (hmethod : h.method = e.method)
    (hcode : Method.ofCode e.method.code = e.method) (hdescriptor : h.descriptor = e.descriptor)
    (hname : normalizeName raw = normalizeName name) (hraw : raw.length < 2 ^ 16)
    (hextra : extraLength < 2 ^ 16) :
    dataOffsetIn (h.fixedPart raw.length extraLength ++ raw) e name =
      .ok (e.headerOffset.toNat + 30 + raw.length + extraLength) := by
  have hlen : raw.length = name.length := length_eq_of_normalizeName hname
  have hparse : LocalHeader.parse (h.fixedPart raw.length extraLength ++ raw) = .ok (some { h with
      nameLength := .ofNat raw.length, extraLength := .ofNat extraLength }) :=
    LocalHeader.parse_fixedPart (by rw [hmethod, hcode]) _ _ _
  have hdrop : (h.fixedPart raw.length extraLength ++ raw).drop LocalHeader.fixedSize = raw :=
    List.drop_left' (LocalHeader.length_fixedPart _ _ _)
  refine dataOffsetIn_eq_ok_iff.mpr ⟨_, hparse, hdescriptor, hmethod, ?_, ?_, ?_⟩
  · exact (UInt16.toNat_ofNat_of_lt' hraw).trans hlen
  · rw [hdrop, namesMatch_iff]
    exact hname
  · rw [UInt16.toNat_ofNat_of_lt' hextra, hlen]

theorem read_written (hlen : raw.length = name.length)
    (hs : s.toList.drop e.headerOffset.toNat = h.fixedPart raw.length extraLength ++ raw ++ rest) :
    s.read e.headerOffset.toNat (LocalHeader.fixedSize + name.length) =
      .ok (h.fixedPart raw.length extraLength ++ raw) := by
  have hheader : (h.fixedPart raw.length extraLength ++ raw).length = 30 + name.length := by
    rw [List.length_append, LocalHeader.length_fixedPart, hlen]
  have hroom : e.headerOffset.toNat + (30 + name.length) ≤ s.size := by
    have hl := congrArg List.length hs
    rw [List.length_drop, Stream.length_toList, List.length_append, hheader] at hl
    omega
  refine (Stream.read_of_le hroom).trans ?_
  rw [Bytes.field, hs, List.take_left' hheader]

/-- The payload behind a written local header is expected after the header, its name and its extra
field; in an encrypted archive the extra field is not seen. -/
theorem expectedOffset_written
    (hs : s.toList.drop e.headerOffset.toNat = h.fixedPart raw.length extraLength ++ raw ++ rest)
    (hmethod : h.method = e.method) (hcode : Method.ofCode e.method.code = e.method)
    (hdescriptor : h.descriptor = e.descriptor) (hname : normalizeName raw = normalizeName name)
    (hraw : raw.length < 2 ^ 16) (hextra : extraLength < 2 ^ 16) :
    l.expectedOffset s e name = .ok (e.headerOffset.toNat + 30 + raw.length +
      if l.encryption.isEncrypted then 0 else extraLength) := by
  have hlen : raw.length = name.length := length_eq_of_normalizeName hname
  by_cases henc : l.encryption.isEncrypted
  · rw [expectedOffset, if_pos henc, if_pos henc, hlen]
    rfl
  · rw [expectedOffset, if_neg henc, if_neg henc]
    exact bind_eq_ok_iff.mpr ⟨_, read_written hlen hs,
      dataOffsetIn_written hmethod hcode hdescriptor hname hraw hextra⟩

/-- **The payload behind a written local header is located**: after the header, its name and its
extra field. -/
theorem locate_written (henc : l.encryption.isEncrypted = false)
    (hs : s.toList.drop e.headerOffset.toNat = h.fixedPart raw.length extraLength ++ raw ++ rest)
    (hmethod : h.method = e.method) (hcode : Method.ofCode e.method.code = e.method)
    (hdescriptor : h.descriptor = e.descriptor) (hname : normalizeName raw = normalizeName name)
    (hraw : raw.length < 2 ^ 16) (hextra : extraLength < 2 ^ 16)
    (hend : e.headerOffset.toNat + 30 + raw.length + extraLength + e.compressedSize ≤
      l.directoryOffset.toNat)
    (hstart : e.compressedSize ≠ 0 →
      e.headerOffset.toNat + 30 + raw.length + extraLength < l.directoryOffset.toNat) :
    l.locate s e name = .ok (.ofNat (e.headerOffset.toNat + 30 + raw.length + extraLength)) := by
  have hoffset : l.expectedOffset s e name = _ :=
    expectedOffset_written hs hmethod hcode hdescriptor hname hraw hextra
  rw [henc] at hoffset
  exact locate_eq_ok_iff.mpr ⟨_, hoffset, inRange_iff.mpr ⟨hend, hstart⟩, rfl⟩

end Written

end PakIndex.Locator
