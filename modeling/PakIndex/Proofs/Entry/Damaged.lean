import PakIndex.Proofs.Checksum.Crc32
import PakIndex.Proofs.Deflate.Local
import PakIndex.Proofs.Entry.Sound

/-!
# Damaged payloads

* `Entry.verify_of_alikeOutside`: a content is not accepted in place of another one that differs
  from it within four bytes in a row.
* **`Entry.decode_stored_damaged`**: so stored bytes are not accepted after such a change.
* `Entry.Inflates`: what a deflated payload must be.
* **`Entry.decode_deflate_eq_ok_iff`**: a payload is accepted if and only if it is that.
* **`Entry.decode_deflate_of_prefix`**: what follows the last block does not matter.
* **`Entry.decode_deflate_damaged`**: what becomes of a changed payload. It may still be accepted,
  as `Entry.decode_deflate_collision` shows.
-/

namespace PakIndex.Entry

variable {codec : Codec} {e : Entry} {stored content : Bytes} {err : Error}

theorem verify_error_cases (h : e.verify content = .error err) :
    (content.length ≠ e.uncompressedSize ∧
      err = .sizeMismatch e.uncompressedSize content.length) ∨
    (crc32 content ≠ e.descriptor.crc32 ∧
      err = .checksumMismatch e.descriptor.crc32 (crc32 content)) := by
  unfold verify at h
  split_ifs at h with hsize hcrc <;> cases h
  · exact .inl ⟨hsize, rfl⟩
  · exact .inr ⟨hcrc, rfl⟩

theorem verify_of_alikeOutside {other : Bytes} {start width : Nat} (hwidth : width ≤ 4)
    (hsize : content.length = e.uncompressedSize) (hcrc : crc32 content = e.descriptor.crc32)
    (halike : content.AlikeOutside start width other) (hne : other ≠ content) :
    crc32 other ≠ e.descriptor.crc32 ∧
      e.verify other = .error (.checksumMismatch e.descriptor.crc32 (crc32 other)) := by
  have hother : crc32 other ≠ e.descriptor.crc32 := by
    rw [← hcrc]
    exact crc32_ne_of_alikeOutside hwidth halike hne
  refine ⟨hother, ?_⟩
  rw [verify, if_neg (not_not.2 (halike.length.trans hsize)), if_pos hother]

/-- An entry of which nothing is said but how its payload is stored. -/
def bare (method : Method) (crc32 compressedSize uncompressedSize : UInt32) : Entry :=
  { (default : Entry) with
    method := method
    descriptor := ⟨crc32, compressedSize, uncompressedSize⟩ }

/-! ## Stored bytes -/

theorem decode_of_store (hmethod : e.method = .store) :
    e.decode codec stored = e.verify stored := by
  rw [decode, if_pos hmethod]
  rfl

/-- **Stored bytes are not accepted after a change within four bytes in a row.** -/
theorem decode_stored_damaged (hmethod : e.method = .store)
    (haccepted : e.decode codec stored = .ok content) (damaged : Bytes)
    (hlength : damaged.length = stored.length) (start width : Nat) (hwidth : width ≤ 4)
    (houtside : ∀ k, k < start ∨ start + width ≤ k → damaged[k]? = stored[k]?)
    (hne : damaged ≠ stored) :
    crc32 damaged ≠ e.descriptor.crc32 ∧
      e.decode codec damaged = .error (.checksumMismatch e.descriptor.crc32 (crc32 damaged)) := by
  rw [decode_of_store hmethod] at haccepted ⊢
  obtain ⟨hsize, hcrc, -⟩ := verify_eq_ok_iff.1 haccepted
  exact verify_of_alikeOutside hwidth hsize hcrc ⟨hlength, houtside⟩ hne

/-- Three letters of a word are changed, the first and the last of them in a window of four. -/
theorem decode_stored_damaged_word :
    (bare .store 0x4B8E39EF 6 6).decode .standard [0x61, 0x62, 0x63, 0x64, 0x65, 0x66] =
      .ok [0x61, 0x62, 0x63, 0x64, 0x65, 0x66] ∧
    ∃ actual, (bare .store 0x4B8E39EF 6 6).decode .standard [0x61, 0x2E, 0x63, 0x2E, 0x21, 0x66] =
      .error (.checksumMismatch 0x4B8E39EF actual) := by
  have haccepted : (bare .store 0x4B8E39EF 6 6).decode .standard
      [0x61, 0x62, 0x63, 0x64, 0x65, 0x66] = .ok [0x61, 0x62, 0x63, 0x64, 0x65, 0x66] := by
    rw [decode_of_store rfl]
    refine verify_eq_ok_iff.2 ⟨by decide, ?_, rfl⟩
    rw [crc32_eq_run]
    decide +kernel
  refine ⟨haccepted, _, (decode_stored_damaged rfl haccepted
    [0x61, 0x2E, 0x63, 0x2E, 0x21, 0x66] rfl 1 4 (Nat.le_refl 4) ?_ (by decide)).2⟩
  rintro (_ | _ | _ | _ | _ | k) hk
  · rfl
  all_goals first | omega | rfl

/-! ## Deflated bytes -/

/-- Whether stored bytes start with a deflate stream that ends, and whose content has the size and
the checksum of an entry. -/
structure Inflates (e : Entry) (stored content : Bytes) : Prop where
  complete : ∃ rest, Deflate.inflateWindows (e.uncompressedSize + 1) stored =
    (.complete rest, content.toByteArray)
  size : content.length = e.uncompressedSize
  checksum : crc32 content = e.descriptor.crc32

theorem decode_of_deflate (hmethod : e.method = .deflate) : e.decode .standard stored =
    ((Deflate.inflate (e.uncompressedSize + 1) stored).mapError
      (CodecFault.toError ∘ Deflate.Fault.toCodecFault)) >>= e.verify := by
  rw [decode, if_neg (by rw [hmethod]; decide), hmethod, Codec.standard]
  rcases Deflate.inflate (e.uncompressedSize + 1) stored <;> rfl

theorem decode_deflate_eq_ok_iff_inflate (hmethod : e.method = .deflate) :
    e.decode .standard stored = .ok content ↔
      Deflate.inflate (e.uncompressedSize + 1) stored = .ok content ∧
        content.length = e.uncompressedSize ∧ crc32 content = e.descriptor.crc32 := by
  rw [decode_of_deflate hmethod]
  rcases Deflate.inflate (e.uncompressedSize + 1) stored with fault | decoded
  · exact ⟨nofun, nofun⟩
  · rw [Except.ok.injEq]
    refine verify_eq_ok_iff.trans ⟨?_, ?_⟩
    · rintro ⟨hsize, hcrc, rfl⟩
      exact ⟨rfl, hsize, hcrc⟩
    · rintro ⟨rfl, hsize, hcrc⟩
      exact ⟨hsize, hcrc, rfl⟩

/-- **A deflated payload is accepted if and only if it is a stream that ends, with the size and the
checksum of the entry.** -/
theorem decode_deflate_eq_ok_iff (hmethod : e.method = .deflate) :
    e.decode .standard stored = .ok content ↔ e.Inflates stored content := by
  rw [decode_deflate_eq_ok_iff_inflate hmethod]
  constructor
  · rintro ⟨hinflate, hsize, hcrc⟩
    exact ⟨(Deflate.inflate_eq_ok_iff (by omega)).1 hinflate, hsize, hcrc⟩
  · rintro ⟨hcomplete, hsize, hcrc⟩
    exact ⟨(Deflate.inflate_eq_ok_iff (by omega)).2 hcomplete, hsize, hcrc⟩

/-- Whether a payload is rejected because its stream cannot be decoded, or because the content has
another size or another checksum than the entry. -/
def Rejects (e : Entry) (codec : Codec) (stored : Bytes) : Prop :=
  ∃ err, e.decode codec stored = .error err ∧
    ((∃ text, err = .codecCorruptStream text) ∨
      (∃ actual, actual ≠ e.uncompressedSize ∧ err = .sizeMismatch e.uncompressedSize actual) ∨
      ∃ actual, actual ≠ e.descriptor.crc32 ∧
        err = .checksumMismatch e.descriptor.crc32 actual)

theorem rejects_of_deflate (hmethod : e.method = .deflate)
    (h : e.decode .standard stored = .error err) : e.Rejects .standard stored := by
  refine ⟨err, h, ?_⟩
  rw [decode_of_deflate hmethod] at h
  rcases hinflate : Deflate.inflate (e.uncompressedSize + 1) stored with fault | decoded
  · rw [hinflate] at h
    cases h
    exact .inl (by cases fault <;> exact ⟨_, rfl⟩)
  · rw [hinflate] at h
    rcases verify_error_cases h with ⟨hsize, rfl⟩ | ⟨hcrc, rfl⟩
    · exact .inr (.inl ⟨_, hsize, rfl⟩)
    · exact .inr (.inr ⟨_, hcrc, rfl⟩)

theorem decode_bare_deflate {crc compressed size : UInt32}
    (hinflate : (Deflate.inflate (size.toNat + 1) stored).toOption = some content)
    (hsize : content.length = size.toNat) (hcrc : crc32 content = crc) :
    (bare .deflate crc compressed size).decode .standard stored = .ok content := by
  refine (decode_deflate_eq_ok_iff_inflate rfl).2 ⟨?_, hsize, hcrc⟩
  show Deflate.inflate (size.toNat + 1) stored = .ok content
  rcases hrun : Deflate.inflate (size.toNat + 1) stored with fault | c <;> rw [hrun] at hinflate
  · cases hinflate
  · exact congrArg Except.ok (Option.some.inj hinflate)

/-- **What follows the last block does not matter**: the payload is accepted, with the same content,
whatever the bits behind the stream are. -/
theorem decode_deflate_of_prefix (hmethod : e.method = .deflate)
    (haccepted : e.decode .standard stored = .ok content) :
    ∃ bits rest, Deflate.inflateWindows (e.uncompressedSize + 1) stored =
        (.complete rest, content.toByteArray) ∧
      (BitSource.mk stored 0).bits = bits ++ rest.bits ∧
      ∀ altered : Bytes, altered.length = stored.length →
        bits <+: (BitSource.mk altered 0).bits → e.decode .standard altered = .ok content := by
  obtain ⟨⟨rest, hrun⟩, hsize, hcrc⟩ := (decode_deflate_eq_ok_iff hmethod).1 haccepted
  obtain ⟨bits, hbits, hsame⟩ := Deflate.inflateWindows_of_prefix hrun
  refine ⟨bits, rest, hrun, hbits, fun altered hlength hprefix => ?_⟩
  exact (decode_deflate_eq_ok_iff hmethod).2 ⟨hsame altered hlength hprefix, hsize, hcrc⟩

/-- **What becomes of a changed payload.** It is rejected unless it is a stream that ends as well,
whose content has the size and the checksum of the entry. That content is the one from before, or it
differs from it by more than four bytes in a row. A change behind the last block of the accepted
stream is never rejected: as long as the bits up to there and the length stay the same, so does the
content. -/
theorem decode_deflate_damaged (hmethod : e.method = .deflate)
    (haccepted : e.decode .standard stored = .ok content) :
    (∀ damaged, e.Rejects .standard damaged ∨
      ∃ other, e.decode .standard damaged = .ok other ∧ e.Inflates damaged other ∧
        ∀ start, (∀ k, k < start ∨ start + 4 ≤ k → other[k]? = content[k]?) → other = content) ∧
    ∃ bits rest, Deflate.inflateWindows (e.uncompressedSize + 1) stored =
        (.complete rest, content.toByteArray) ∧
      (BitSource.mk stored 0).bits = bits ++ rest.bits ∧
      ∀ altered : Bytes, altered.length = stored.length →
        bits <+: (BitSource.mk altered 0).bits → e.decode .standard altered = .ok content := by
  refine ⟨fun damaged => ?_, decode_deflate_of_prefix hmethod haccepted⟩
  have hfirst := (decode_deflate_eq_ok_iff hmethod).1 haccepted
  rcases hdamaged : e.decode .standard damaged with err | other
  · exact .inl (rejects_of_deflate hmethod hdamaged)
  · have hother := (decode_deflate_eq_ok_iff hmethod).1 hdamaged
    refine .inr ⟨other, rfl, hother, fun start houtside => ?_⟩
    by_contra hne
    have halike : content.AlikeOutside start 4 other :=
      ⟨hother.size.trans hfirst.size.symm, houtside⟩
    exact (verify_of_alikeOutside (Nat.le_refl 4) hfirst.size hfirst.checksum halike hne).1
      hother.checksum

/-- A letter that is changed in its deflated payload is rejected, and the six bits behind the last
block do not matter. -/
theorem decode_deflate_damaged_letter :
    (bare .deflate 0xE8B7BE43 3 1).decode .standard [0x4B, 0x04, 0x00] = .ok [0x61] ∧
    (bare .deflate 0xE8B7BE43 3 1).Rejects .standard [0x4B, 0x05, 0x00] ∧
    (bare .deflate 0xE8B7BE43 3 1).decode .standard [0x4B, 0x04, 0xFC] = .ok [0x61] := by
  have haccepted : (bare .deflate 0xE8B7BE43 3 1).decode .standard [0x4B, 0x04, 0x00] =
      .ok [0x61] := by
    refine decode_bare_deflate (by decide +kernel) (by decide) ?_
    rw [crc32_eq_run]
    decide +kernel
  obtain ⟨hdamaged, bits, rest, hrun, hbits, hbehind⟩ := decode_deflate_damaged rfl haccepted
  refine ⟨haccepted, ?_, ?_⟩
  · rcases hdamaged [0x4B, 0x05, 0x00] with h | ⟨other, hother, hinflates, hsame⟩
    · exact h
    -- any two contents of one byte are alike outside a window, so it would be the same one
    have hlength : other.length = 1 := hinflates.size
    obtain rfl : other = [0x61] := hsame 0 fun k hk => by
      rw [List.getElem?_eq_none (by omega), List.getElem?_eq_none (by simp; omega)]
    have hinflate := ((decode_deflate_eq_ok_iff_inflate rfl).1 hother).1
    have hcomputed : (Deflate.inflate 2 [0x4B, 0x05, 0x00]).toOption ≠ some [0x61] := by
      decide +kernel
    exact absurd (congrArg Except.toOption hinflate) hcomputed
  · have hcomputed : (Deflate.inflateWindows 2 [0x4B, 0x04, 0x00]).1.restBits =
        [0, 0, 0, 0, 0, 0] := by decide +kernel
    have hending : (Deflate.inflateWindows 2 [0x4B, 0x04, 0x00]).1 = .complete rest :=
      congrArg Prod.fst hrun
    rw [hending] at hcomputed
    change rest.bits = _ at hcomputed
    have hsplit : (BitSource.mk [0x4B, 0x04, 0x00] 0).bits =
        (BitSource.mk [0x4B, 0x04, 0xFC] 0).bits.take 18 ++ [0, 0, 0, 0, 0, 0] := by decide
    rw [hcomputed, hsplit] at hbits
    refine hbehind [0x4B, 0x04, 0xFC] rfl ?_
    rw [← List.append_cancel_right hbits]
    exact List.take_prefix 18 _

/-- Some bytes with `b` at the places 0, 3, 43, 49, 70, 78 and 123. Their checksum is the same
whichever byte that is: counted from the end, the places are the exponents of a multiple of the
polynomial. -/
def collidingContent (b : UInt8) : Bytes :=
  let z (count : Nat) : Bytes := .replicate count 0x7A
  [b] ++ z 2 ++ [b] ++ z 39 ++ [b] ++ z 5 ++ [b] ++ z 20 ++ [b] ++ z 7 ++ [b] ++ z 44 ++ [b]

/-- These bytes deflated, with `code` where `b` is coded: it is written once and copied. -/
def collidingPayload (code : UInt8) : Bytes :=
  [0x4B, code, 0xAA, 0x02, 0x22, 0xA2, 0x00, 0x44, 0x1D, 0x56, 0xD5, 0x30, 0x23, 0x88, 0x35, 0x0A,
    0xA2, 0x18, 0x00]

/-- A bit of a payload is changed, and another content is accepted. -/
theorem decode_deflate_collision :
    (bare .deflate 958189924 19 124).method = .deflate ∧
    (bare .deflate 958189924 19 124).decode .standard (collidingPayload 0xAC) =
      .ok (collidingContent 0x61) ∧
    collidingPayload 0xAD = (collidingPayload 0xAC).set 1 0xAD ∧
    collidingPayload 0xAD ≠ collidingPayload 0xAC ∧
    (bare .deflate 958189924 19 124).decode .standard (collidingPayload 0xAD) =
      .ok (collidingContent 0x65) := by
  have hcrc (b : UInt8) (hb : b = 0x61 ∨ b = 0x65) : crc32 (collidingContent b) = 958189924 := by
    rw [crc32_eq_run]
    rcases hb with rfl | rfl <;> decide +kernel
  exact ⟨rfl, decode_bare_deflate (by decide +kernel) rfl (hcrc _ (.inl rfl)), rfl, by decide,
    decode_bare_deflate (by decide +kernel) rfl (hcrc _ (.inr rfl))⟩

end PakIndex.Entry
