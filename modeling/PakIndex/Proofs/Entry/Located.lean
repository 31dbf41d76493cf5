import PakIndex.Proofs.Checks
import PakIndex.Proofs.Entry.Locator

/-!
# Which entries are located

* `Locator.plainOffset`, `Locator.plainChecks`: where the payload of an entry starts by its local
  header, and what is asked of the entry and the header, in order. Both are said on the bytes.
* `Locator.dataOffsetIn_failsAs`, `Locator.locate_plain_failsAs`: nothing else is asked.
* `Locator.locate_error`: locating fails only because the local header contradicts the directory, as
  far as the header and the name lie in the archive.
* **`Locator.locate_exact`**: exactly the entries that pass are located, at exactly this offset; the
  others fail with the first check that they do not pass.
-/

namespace PakIndex.Locator

open Bytes

variable {l : Locator} {s : Stream} {e : Entry} {name : Bytes} {err : Error} {d : UInt32}

/-! ## What is asked -/

/-- Whether a payload of `size` bytes at `offset` ends before the directory, and starts there unless
it is empty. -/
def Before (l : Locator) (offset size : Nat) : Prop :=
  offset + size ≤ l.directoryOffset.toNat ∧ (0 < size → offset < l.directoryOffset.toNat)

/-- Header and name at the offset that the directory has for them. -/
def headerBytes (s : Stream) (e : Entry) (name : Bytes) : Bytes :=
  s.toList.field e.headerOffset.toNat (30 + name.length)

/-- The offset behind the local header, the name and the extra field of an entry. -/
def plainOffset (s : Stream) (e : Entry) (name : Bytes) : Nat :=
  e.headerOffset.toNat + 30 + name.length + ((headerBytes s e name).u16At 28).toNat

/-- What is asked of a local header, in this order: it has the signature and repeats checksum and
sizes, method and name of the entry. -/
def headerChecks (bs : Bytes) (e : Entry) (name : Bytes) : Checks :=
  [(bs.u32At 0 = 0x04034b50, .validationFailed name .noSignature),
    (bs.u32At 14 = e.descriptor.crc32 ∧ bs.u32At 18 = e.descriptor.compressedSize ∧
      bs.u32At 22 = e.descriptor.uncompressedSize, .validationFailed name .descriptor),
    (Method.ofCode (bs.u16At 8) = e.method, .validationFailed name .method),
    ((bs.u16At 26).toNat = name.length, .validationFailed name .nameLength),
    (normalizeName (bs.drop 30) = normalizeName name, .validationFailed name .name)]

/-- What is asked of an entry in an archive without encryption, in this order: header and name are
there, the header repeats what the directory says, and the payload lies before the directory. -/
def plainChecks (l : Locator) (s : Stream) (e : Entry) (name : Bytes) : Checks :=
  (e.headerOffset.toNat + 30 + name.length ≤ s.size, .io .endOfData) ::
    (headerChecks (headerBytes s e name) e name ++
      [(l.Before (plainOffset s e name) e.compressedSize,
        .offsetOutOfRange name (plainOffset s e name) l.directoryOffset)])

/-! ## How locating fails -/

theorem readAt_eq_iff {bs : Bytes} {start : Nat} {x : Descriptor} :
    Descriptor.readAt bs start = x ↔ bs.u32At start = x.crc32 ∧
      bs.u32At (start + 4) = x.compressedSize ∧ bs.u32At (start + 8) = x.uncompressedSize := by
  cases x
  exact Descriptor.mk.injEq .. ▸ Iff.rfl

/-- **A local header is refused** for the first of the checks that it does not pass. -/
theorem dataOffsetIn_failsAs {bs : Bytes} (hlen : 30 ≤ bs.length) :
    FailsAs (dataOffsetIn bs e name) (headerChecks bs e name) := by
  have hfixed : LocalHeader.fixedSize = 30 := rfl
  by_cases hsig : bs.u32At 0 = LocalHeader.signature
  · rw [dataOffsetIn, LocalHeader.parse, if_neg (by omega), if_neg (not_not.mpr hsig),
      if_neg (by omega)]
    exact .cons hsig (.require readAt_eq_iff.symm fun _ => .require .rfl fun _ =>
      .require .rfl fun _ => .require namesMatch_iff.symm fun _ => .ok)
  · rw [dataOffsetIn, LocalHeader.parse, if_neg (by omega), if_pos hsig]
    exact .first hsig

theorem offset_of_dataOffsetIn {bs : Bytes} {offset : Nat}
    (h : dataOffsetIn bs e name = .ok offset) :
    offset = e.headerOffset.toNat + 30 + name.length + (bs.u16At 28).toNat := by
  obtain ⟨header, hparse, -, -, -, -, rfl⟩ := dataOffsetIn_eq_ok_iff.mp h
  unfold LocalHeader.parse at hparse
  split_ifs at hparse <;> cases hparse
  rfl

theorem inRange_iff_before {offset size : Nat} :
    l.inRange offset size = true ↔ l.Before offset size := by
  rw [inRange_iff, Before, Nat.pos_iff_ne_zero]

/-- **An entry is not located** for the first of the checks that it does not pass. -/
theorem locate_plain_failsAs (henc : l.encryption = .none) :
    FailsAs (l.locate s e name) (l.plainChecks s e name) := by
  have hfixed : LocalHeader.fixedSize = 30 := rfl
  have hexpected : l.expectedOffset s e name =
      s.read e.headerOffset.toNat (30 + name.length) >>= fun bs => dataOffsetIn bs e name := by
    rw [expectedOffset, henc]
    rfl
  rw [locate, hexpected]
  by_cases hroom : e.headerOffset.toNat + 30 + name.length ≤ s.size
  · have hread : s.read e.headerOffset.toNat (30 + name.length) = .ok (headerBytes s e name) :=
      Stream.read_of_le (by omega)
    have hlen : 30 ≤ (headerBytes s e name).length := by
      rw [headerBytes, Stream.length_field (by omega)]
      omega
    rw [hread]
    refine .cons hroom ((dataOffsetIn_failsAs hlen).bind fun offset hoffset => ?_)
    obtain rfl := offset_of_dataOffsetIn hoffset
    exact .require inRange_iff_before.symm fun _ => .ok
  · have hread : s.read e.headerOffset.toNat (30 + name.length) = .error (.io .endOfData) := by
      rw [Stream.read_eq, if_neg (by omega)]
    rw [hread]
    exact .first hroom

theorem locate_plain_eq_ok_iff (henc : l.encryption = .none) : l.locate s e name = .ok d ↔
    (l.plainChecks s e name).Hold ∧ d.toNat = plainOffset s e name := by
  have hvalue : ∀ d', l.locate s e name = .ok d' → d'.toNat = plainOffset s e name := fun d' h => by
    obtain ⟨hoffset, -⟩ := locate_eq_ok_iff_toNat.mp h
    rw [expectedOffset, henc] at hoffset
    obtain ⟨bs, hread, hoffset⟩ := bind_eq_ok_iff.mp hoffset
    obtain ⟨-, rfl⟩ := Stream.read_eq_ok_iff.mp hread
    exact offset_of_dataOffsetIn hoffset
  rw [← (locate_plain_failsAs henc).exists_ok_iff]
  constructor
  · intro h
    exact ⟨⟨d, h⟩, hvalue d h⟩
  · rintro ⟨⟨d', h⟩, hd⟩
    obtain rfl : d' = d := UInt32.toNat_inj.mp ((hvalue d' h).trans hd.symm)
    exact h

/-! ## Encrypted archives -/

theorem locate_encrypted_failsAs (henc : l.encryption ≠ .none) :
    FailsAs (l.locate s e name)
      [(l.Before (e.headerOffset.toNat + 30 + name.length) e.compressedSize,
        .offsetOutOfRange name (e.headerOffset.toNat + 30 + name.length) l.directoryOffset)] := by
  have henc : l.encryption.isEncrypted = true := bne_iff_ne.mpr henc
  rw [locate, expectedOffset, if_pos henc]
  exact .require inRange_iff_before.symm fun _ => .ok

theorem locate_encrypted_eq_ok_iff (henc : l.encryption ≠ .none) : l.locate s e name = .ok d ↔
    l.Before (e.headerOffset.toNat + 30 + name.length) e.compressedSize ∧
      d.toNat = e.headerOffset.toNat + 30 + name.length := by
  have henc : l.encryption.isEncrypted = true := bne_iff_ne.mpr henc
  have hexpected : l.expectedOffset s e name = .ok (e.headerOffset.toNat + 30 + name.length) := by
    rw [expectedOffset, if_pos henc]
    rfl
  rw [locate_eq_ok_iff_toNat, hexpected, Except.ok.injEq, Before, Nat.pos_iff_ne_zero]
  constructor
  · rintro ⟨hd, hrange⟩
    exact ⟨hd ▸ hrange, hd.symm⟩
  · rintro ⟨hrange, hd⟩
    exact ⟨hd.symm, hd ▸ hrange⟩

/-! ## Contradictions -/

theorem class_plainChecks (l : Locator) (s : Stream) (e : Entry) (name : Bytes) :
    ∀ c ∈ (l.plainChecks s e name).tail, c.2.class = .crossValidation := by
  simp [plainChecks, headerChecks, Error.class]

/-- **Locating fails only because the local header contradicts the directory**, as far as header and
name lie in the archive: nothing is read from elsewhere. -/
theorem locate_error (hlen : e.headerOffset.toNat + 30 + name.length ≤ s.size)
    (h : l.locate s e name = .error err) : err.class = .crossValidation := by
  by_cases henc : l.encryption = .none
  · rcases Checks.first_cons_iff.mp ((locate_plain_failsAs henc err).mp h) with ⟨hroom, -⟩ | ⟨-, h⟩
    · exact absurd hlen hroom
    · obtain ⟨c, hc, rfl⟩ := h.exists_mem
      exact class_plainChecks l s e name c hc
  · obtain ⟨c, hc, rfl⟩ := ((locate_encrypted_failsAs henc err).mp h).exists_mem
    cases List.mem_singleton.mp hc
    rfl

/-! ## Sums of 64 bits -/

theorem toNat_offset_words (hname : name.length < 2 ^ 63) (extra : UInt16) :
    let offset := e.headerOffset.toUInt64 + 30 + .ofNat name.length + extra.toUInt64
    offset.toNat = e.headerOffset.toNat + 30 + name.length + extra.toNat ∧
      (offset + e.descriptor.compressedSize.toUInt64).toNat =
        e.headerOffset.toNat + 30 + name.length + extra.toNat + e.compressedSize := by
  have hheader := e.headerOffset.toNat_lt
  have hextra := extra.toNat_lt
  have hsize := e.descriptor.compressedSize.toNat_lt
  simp only [UInt64.toNat_add, UInt32.toNat_toUInt64, UInt16.toNat_toUInt64, UInt64.toNat_ofNat',
    Entry.compressedSize]
  have hthirty : UInt64.toNat 30 = 30 := rfl
  omega

/-- **Exactly the consistent entries are located, at exactly the offset behind their local header.**
Without encryption the header and the name are there and repeat what the directory says, and the
payload behind them and behind the extra field lies before the directory. With encryption the place
behind header and name counts, whatever the archive holds there. What is not located fails with the
first of these checks that it does not pass. No sum of 64 bits overflows on the way, and the offset
loses nothing in 32 bits. -/
theorem locate_exact (l : Locator) (s : Stream) (e : Entry) (name : Bytes) :
    (l.encryption = .none →
      (∀ d, l.locate s e name = .ok d ↔
        (l.plainChecks s e name).Hold ∧ d.toNat = plainOffset s e name) ∧
      ∀ err, l.locate s e name = .error err ↔ (l.plainChecks s e name).First err) ∧
    (l.encryption ≠ .none →
      let offset := e.headerOffset.toNat + 30 + name.length
      (∀ d, l.locate s e name = .ok d ↔ l.Before offset e.compressedSize ∧ d.toNat = offset) ∧
      ∀ err, l.locate s e name = .error err ↔ ¬ l.Before offset e.compressedSize ∧
        err = .offsetOutOfRange name offset l.directoryOffset) ∧
    (name.length < 2 ^ 63 → ∀ extra : UInt16,
      let offset := e.headerOffset.toUInt64 + 30 + .ofNat name.length + extra.toUInt64
      offset.toNat = e.headerOffset.toNat + 30 + name.length + extra.toNat ∧
        (offset + e.descriptor.compressedSize.toUInt64).toNat =
          e.headerOffset.toNat + 30 + name.length + extra.toNat + e.compressedSize) := by
  refine ⟨fun henc => ⟨fun d => locate_plain_eq_ok_iff henc, locate_plain_failsAs henc⟩,
    fun henc => ⟨fun d => locate_encrypted_eq_ok_iff henc, fun err => ?_⟩, toNat_offset_words⟩
  rw [locate_encrypted_failsAs henc err, Checks.first_cons_iff]
  constructor
  · rintro (⟨hrange, rfl⟩ | ⟨-, h⟩)
    · exact ⟨hrange, rfl⟩
    · exact absurd h Checks.not_first_nil
  · rintro ⟨hrange, rfl⟩
    exact .inl ⟨hrange, rfl⟩

end PakIndex.Locator
