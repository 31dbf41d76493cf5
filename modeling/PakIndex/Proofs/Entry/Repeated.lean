import PakIndex.Proofs.Entry.Locator
import PakIndex.Proofs.Headers
import PakIndex.Proofs.Layout.Extension
import PakIndex.Proofs.Layout.Inverse

/-!
# Layouts that are written and read

* `DirectoryRecord.localHeader`: the local header that repeats a directory record.
* `Locator.locate_repeated`: behind such a header, the range alone decides on a payload.
* **`layouts_inverse`**: what is written is read back, what is read is written as it stood, and the
  two layouts of a file agree where they are compared.
-/

namespace PakIndex

open Bytes

/-- The local header that says about a file what its directory record says. -/
def DirectoryRecord.localHeader (r : DirectoryRecord) : LocalHeader where
  versionNeeded := r.versionNeeded
  flags := r.flags
  method := r.method
  time := r.time
  date := r.date
  descriptor := r.descriptor
  nameLength := r.nameLength
  extraLength := r.extraLength

namespace Locator

variable {f : ListedFile} {s : Stream} {name extra rest : Bytes}

/-- Where the payload of a listed file starts if its local header repeats its record. In an
encrypted archive the extra field is not seen. -/
def startBehind (l : Locator) (f : ListedFile) (name extra : Bytes) : Nat :=
  f.record.headerOffset.toNat + 30 + name.length +
    if l.encryption.isEncrypted then 0 else extra.length

/-- **Behind a local header that repeats the directory record**, only the range of the payload is
left to be checked. -/
theorem locate_repeated (hcode : f.record.method.HasCode) (hname : name.length < 2 ^ 16)
    (hextra : extra.length < 2 ^ 16)
    (hs : s.toList.drop f.record.headerOffset.toNat =
      f.record.localHeader.encode name extra ++ rest) (l : Locator) :
    l.locate s (.ofListed f) (normalizeName name) =
      if l.inRange (l.startBehind f name extra) f.record.descriptor.compressedSize.toNat then
        .ok (.ofNat (l.startBehind f name extra))
      else .error (.offsetOutOfRange (normalizeName name) (l.startBehind f name extra)
        l.directoryOffset) := by
  have hs : s.toList.drop (Entry.ofListed f).headerOffset.toNat =
      f.record.localHeader.fixedPart name.length extra.length ++ name ++ (extra ++ rest) := by
    rw [← List.append_assoc]
    exact hs
  have hoffset : l.expectedOffset s (.ofListed f) (normalizeName name) =
      .ok (l.startBehind f name extra) :=
    expectedOffset_written hs rfl hcode.ofCode_code rfl (normalizeName_idem name).symm hname hextra
  rw [locate, hoffset]
  by_cases hr : l.inRange (l.startBehind f name extra) f.record.descriptor.compressedSize.toNat
  · rw [if_pos hr]
    exact guard_eq_ok_iff.mpr ⟨not_not.mpr hr, rfl⟩
  · rw [if_neg hr]
    exact if_pos hr

end Locator

/-- **Layouts are read and written alike.** A trailer and an extended header that are written are
read back, whatever follows them, and those that are read are written as they stood. So are
directory records and local headers, with any method that a code stands for, and with the lengths of
the name and the extra field that are written: what else stands in the fixed part of either is
read back and written as it stood. Checksum and sizes are the same three words in both, so that a
local header written from a directory record, with any extra field, repeats it: whether the payload
behind it is located depends on its range alone. -/
theorem layouts_inverse (bs name extra rest : Bytes) :
    (∀ t, Trailer.parse (t.encode ++ rest) = .ok t ∧
      (Trailer.parse bs = .ok t → t.encode = bs.field 0 22)) ∧
    (∀ x, ExtendedHeader.parse (x.encode ++ rest) = .ok x ∧
      (ExtendedHeader.parse bs = .ok x → x.encode = bs.field 0 8)) ∧
    (∀ r,
      (r.method.HasCode → name.length < 2 ^ 16 →
        DirectoryRecord.parse (r.encode name ++ rest) = .ok (r.named name) ∧
          (r.named name).nameLength.toNat = name.length) ∧
      (DirectoryRecord.parse bs = .ok r → 46 ≤ bs.length ∧
        (r.encode name).field 0 28 = bs.field 0 28 ∧
        (r.encode name).field 34 12 = bs.field 34 12)) ∧
    (∀ h,
      (h.method.HasCode → name.length < 2 ^ 16 → extra.length < 2 ^ 16 →
        LocalHeader.parse (h.encode name extra ++ rest) = .ok (some (h.named name extra)) ∧
          (h.named name extra).nameLength.toNat = name.length ∧
          (h.named name extra).extraLength.toNat = extra.length) ∧
      (LocalHeader.parse bs = .ok (some h) → 30 ≤ bs.length ∧
        (h.encode name extra).field 0 26 = bs.field 0 26)) ∧
    (∀ r : DirectoryRecord, (r.encode name).field 16 12 = r.descriptor.encode) ∧
    (∀ h : LocalHeader, (h.encode name extra).field 14 12 = h.descriptor.encode) ∧
    ∀ (f : ListedFile) (s : Stream) (l : Locator), f.record.method.HasCode →
      name.length < 2 ^ 16 → extra.length < 2 ^ 16 →
      s.toList.drop f.record.headerOffset.toNat = f.record.localHeader.encode name extra ++ rest →
      l.locate s (.ofListed f) (normalizeName name) =
        if l.inRange (l.startBehind f name extra) f.record.descriptor.compressedSize.toNat then
          .ok (.ofNat (l.startBehind f name extra))
        else .error (.offsetOutOfRange (normalizeName name) (l.startBehind f name extra)
          l.directoryOffset) :=
  ⟨fun t => ⟨t.parse_encode rest, Trailer.encode_of_parse⟩,
    fun x => ⟨x.parse_encode rest, ExtendedHeader.encode_of_parse⟩,
    fun _ => ⟨fun hm hname => DirectoryRecord.parse_encode hm hname rest,
      fun h => DirectoryRecord.encode_of_parse h name⟩,
    fun _ => ⟨fun hm hname hextra => LocalHeader.parse_encode hm hname hextra rest,
      fun h => LocalHeader.encode_of_parse h name extra⟩,
    fun r => r.field_descriptor name, fun h => h.field_descriptor name extra,
    fun _ _ l hm hname hextra hs => Locator.locate_repeated hm hname hextra hs l⟩

/-- A record with a method that is not known, whose fixed part stood in front of a longer name, an
extra field and a comment, its local header, and a payload that just ends before the directory, or
just does not. -/
theorem layouts_inverse_repeated :
    let t : Trailer := ⟨0x4001, 1, 2, 3, 49, 41, 5⟩
    let x : ExtendedHeader := ⟨3, 1⟩
    let r : DirectoryRecord :=
      ⟨20, 10, 2, .unknown 98, 0x6000, 0x5A21, ⟨0xCBF43926, 2, 9⟩, 7, 8, 9, 1, 1, 0x20, 2⟩
    let name : Bytes := [0x41, 0x5C, 0x62]
    let extra : Bytes := [0x75, 0x70, 0, 0]
    let header := r.localHeader.encode name extra
    let s := Stream.ofBytes ([1, 2] ++ (header ++ [7, 8]))
    let f : ListedFile := ⟨r, default, none⟩
    t.encode = (t.encode ++ [7, 8]).field 0 22 ∧ x.encode = (x.encode ++ [7, 8]).field 0 8 ∧
      DirectoryRecord.parse (r.encode name ++ [7, 8]) = .ok (r.named name) ∧
      (r.encode name).field 34 12 = r.fixedBytes.field 34 12 ∧
      LocalHeader.parse (header ++ [7, 8]) = .ok (some (r.localHeader.named name extra)) ∧
      ((r.localHeader.named name extra).encode [0x63] []).field 0 26 =
        (header ++ [7, 8]).field 0 26 ∧
      Locator.locate ⟨.none, 41⟩ s (.ofListed f) [0x61, 0x2F, 0x62] = .ok 39 ∧
      Locator.locate ⟨.none, 40⟩ s (.ofListed f) [0x61, 0x2F, 0x62] =
        .error (.offsetOutOfRange [0x61, 0x2F, 0x62] 39 40) := by
  intro t x r name extra header s f
  have hcode : r.method.HasCode := ⟨98, rfl⟩
  have hname : name.length < 2 ^ 16 := by decide
  have hextra : extra.length < 2 ^ 16 := by decide
  have hs : s.toList.drop r.headerOffset.toNat = header ++ [7, 8] := by
    rw [Stream.toList_ofBytes]
    rfl
  obtain ⟨htrailer, -⟩ := layouts_inverse (t.encode ++ [7, 8]) name extra [7, 8]
  obtain ⟨-, hextended, -⟩ := layouts_inverse (x.encode ++ [7, 8]) name extra [7, 8]
  obtain ⟨-, -, hrecord, -, -, -, hlocate⟩ := layouts_inverse r.fixedBytes name extra [7, 8]
  obtain ⟨-, -, -, hheader, -⟩ := layouts_inverse (header ++ [7, 8]) name extra [7, 8]
  obtain ⟨-, -, -, hshorter, -⟩ := layouts_inverse (header ++ [7, 8]) [0x63] [] []
  have hstood : DirectoryRecord.parse r.fixedBytes = .ok r := by
    rw [← r.fixedBytes.append_nil]
    exact DirectoryRecord.parse_fixedBytes hcode.ofCode_code []
  have hread := ((hheader r.localHeader).1 hcode hname hextra).1
  exact ⟨(htrailer t).2 (htrailer t).1, (hextended x).2 (hextended x).1,
    ((hrecord r).1 hcode hname).1, ((hrecord r).2 hstood).2.2, hread, ((hshorter _).2 hread).2,
    hlocate f s ⟨.none, 41⟩ hcode hname hextra hs, hlocate f s ⟨.none, 40⟩ hcode hname hextra hs⟩

end PakIndex
