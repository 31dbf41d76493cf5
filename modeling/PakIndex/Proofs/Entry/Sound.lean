import PakIndex.Payload
import PakIndex.Proofs.Entry.Locator
import PakIndex.Proofs.Name.Pool

/-!
# Sound entries

* `Entry.decode_error`, `Entry.stored_of_le`, `Entry.validate_error`: reading a payload that lies in
  the archive fails only because of what is stored there.
* `Entry.decode_ok`: what is decoded has the size and checksum of the entry.
* `Entry.Sound`: what holds of the entries of an index, and is enough to write them again.
* `Entry.Sound.located`: a place that is known is the one that locating finds.
-/

namespace PakIndex

/-! ## Payloads -/

theorem CodecFault.class_toError (f : CodecFault) : f.toError.class = .diagnostic := by
  cases f <;> rfl

namespace Entry

variable {codec : Codec} {s : Stream} {e : Entry} {err : Error} {d : UInt32}

theorem verify_error {content : Bytes} (h : e.verify content = .error err) :
    err.class = .diagnostic := by
  unfold verify at h
  split_ifs at h <;> cases h <;> rfl

theorem verify_eq_ok_iff {content result : Bytes} : e.verify content = .ok result ↔
    content.length = e.uncompressedSize ∧ crc32 content = e.descriptor.crc32 ∧
      content = result := by
  unfold verify
  split_ifs with hsize hcrc
  · exact ⟨nofun, fun h => absurd h.1 hsize⟩
  · exact ⟨nofun, fun h => absurd h.2.1 hcrc⟩
  · rw [Except.ok.injEq]
    exact ⟨fun h => ⟨not_not.mp hsize, not_not.mp hcrc, h⟩, fun h => h.2.2⟩

theorem decode_ok {stored content : Bytes} (h : e.decode codec stored = .ok content) :
    content.length = e.uncompressedSize ∧ crc32 content = e.descriptor.crc32 := by
  obtain ⟨decoded, h⟩ : ∃ decoded, e.verify decoded = .ok content := by
    unfold decode at h
    by_cases hm : e.method = .store
    · simp only [if_pos hm] at h
      exact ⟨stored, h⟩
    · simp only [if_neg hm, bind_eq_ok_iff] at h
      obtain ⟨decoded, -, h⟩ := h
      exact ⟨decoded, h⟩
  obtain ⟨hsize, hcrc, rfl⟩ := verify_eq_ok_iff.mp h
  exact ⟨hsize, hcrc⟩

theorem decode_error {stored : Bytes} (h : e.decode codec stored = .error err) :
    err.class = .diagnostic := by
  unfold decode at h
  by_cases hm : e.method = .store
  · simp only [if_pos hm] at h
    exact verify_error h
  · simp only [if_neg hm, bind_eq_error_iff] at h
    rcases h with h | ⟨content, -, h⟩
    · cases hc : codec e.method stored e.uncompressedSize with
      | error fault =>
        rw [hc] at h
        cases h
        exact fault.class_toError
      | ok content =>
        rw [hc] at h
        cases h
    · exact verify_error h

theorem stored_of_le (hd : e.dataOffset = some d) (h : d.toNat + e.compressedSize ≤ s.size) :
    e.stored s = .ok (s.toList.field d.toNat e.compressedSize) := by
  rw [stored, hd]
  exact Stream.read_of_le h

theorem validate_error (hd : e.dataOffset = some d) (hs : d.toNat + e.compressedSize ≤ s.size)
    (h : e.validate codec s = .error err) : err.class = .diagnostic := by
  rcases bind_eq_error_iff.mp h with h | ⟨stored, -, h⟩
  · rw [stored_of_le hd hs] at h
    cases h
  · exact decode_error (map_eq_error_iff.mp h)

/-! ## Soundness -/

/-- Whether an entry is sound: its name is in the pool, normalized, short enough to be written and
without a separator at its end; its record can be written again; it meets the conditions on every
entry; and its payload, if the place is known, is where locating finds it. In an encrypted archive
the place of every payload that is not empty is known. -/
structure Sound (l : Locator) (s : Stream) (names : NamePool) (e : Entry) : Prop where
  held : names.Holds e.name
  normal : normalizeName (names.get e.name) = names.get e.name
  short : (names.get e.name).length < 2 ^ 16
  last : ∃ b, (names.get e.name).getLast? = some b ∧ isSeparator b = false
  method : Method.ofCode e.method.code = e.method
  version : e.versionNeeded &&& 0xFF ≤ maxVersionNeeded
  checked : l.check e (names.get e.name) = .ok ()
  located : ∀ d, e.dataOffset = some d → l.locate s e (names.get e.name) = .ok d
  eager : l.encryption.isEncrypted = true → e.compressedSize ≠ 0 → e.dataOffset.isSome = true

namespace Sound

variable {l : Locator} {names : NamePool}

theorem segments_ne_nil (h : e.Sound l s names) : segments (names.get e.name) ≠ [] := by
  obtain ⟨b, hb, hsep⟩ := h.last
  exact PakIndex.segments_ne_nil hb hsep

theorem headerOffset_le (h : e.Sound l s names) : e.headerOffset.toNat ≤ l.directoryOffset.toNat :=
  (Locator.check_eq_ok_iff.mp h.checked).1

theorem end_le (h : e.Sound l s names) (hd : e.dataOffset = some d)
    (hs : l.directoryOffset.toNat ≤ s.size) : d.toNat + e.compressedSize ≤ s.size :=
  (Locator.locate_bound (h.located d hd)).trans hs

theorem dataOffset_eq (h : e.Sound l s names) (henc : l.encryption.isEncrypted = true)
    (hne : e.compressedSize ≠ 0) : e.dataOffset = (l.locate s e (names.get e.name)).toOption := by
  obtain ⟨d, hd⟩ := Option.isSome_iff_exists.mp (h.eager henc hne)
  rw [hd, h.located d hd]
  rfl

theorem locate (h : e.Sound l s names) (hd : l.locate s e (names.get e.name) = .ok d) :
    Sound l s names { e with dataOffset := some d } where
  held := h.held
  normal := h.normal
  short := h.short
  last := h.last
  method := h.method
  version := h.version
  checked := h.checked
  located := by
    rintro _ ⟨⟩
    exact hd
  eager _ _ := rfl

theorem slot (h : e.Sound l s names) (stop : UInt32) :
    Sound l s names { e with slotEnd := stop } :=
  ⟨h.held, h.normal, h.short, h.last, h.method, h.version, h.checked, h.located, h.eager⟩

end Sound

end Entry

end PakIndex
