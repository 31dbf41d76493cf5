import PakIndex.Directory
import PakIndex.Proofs.Layout.ExtraField
import PakIndex.Proofs.Layout.Record
import PakIndex.Proofs.Name.Pool
import PakIndex.Proofs.Steps
import PakIndex.Proofs.Stream

/-!
# The walk through the directory

* `Listing.recordAt_error`, `Listing.add_error`: every slice of the walk lies in the directory, so
  that it fails only because the directory is malformed.
* `Listing.split_record`, `Listing.fields_of_record`: the parts of a record in a directory.
* `Listing.Sound`: what holds of a listing after some bytes of a directory;
  **`Listing.parse_sound`**: it holds of every listing.
* `Listing.Shows`: which files a listing has; `Shows.push`: and with one more.
-/

namespace PakIndex

open Bytes

namespace Listing

variable {buffer : Stream} {pos : Nat} {record : DirectoryRecord} {l l' : Listing} {e : Error}

/-! ## Records of a directory -/

theorem recordAt_error (h : recordAt buffer pos = .error e) : e.class = .structural := by
  have hfixed : DirectoryRecord.fixedSize = 46 := rfl
  simp only [recordAt, bind_eq_error_iff, guard_eq_error_iff] at h
  obtain ⟨-, rfl⟩ | ⟨hlen, h⟩ := h
  · rfl
  have hcut : buffer.cut pos DirectoryRecord.fixedSize =
    .ok (buffer.toList.field pos DirectoryRecord.fixedSize) := Stream.cut_of_le (by omega)
  obtain h | ⟨bs, hbs, h⟩ := h
  · cases h.symm.trans hcut
  cases hbs.symm.trans hcut
  obtain h | ⟨record, -, h⟩ := h
  · exact DirectoryRecord.parse_error (Stream.length_field (by omega)) h
  obtain ⟨-, rfl⟩ | ⟨-, ⟨-, rfl⟩ | ⟨-, h⟩⟩ := h
  · rfl
  · rfl
  · cases h

theorem recordAt_ok (h : recordAt buffer pos = .ok record) :
    Method.ofCode record.method.code = record.method ∧
      record.versionNeeded &&& 0xFF ≤ maxVersionNeeded ∧ pos + record.totalSize ≤ buffer.size := by
  simp only [recordAt, bind_eq_ok_iff, guard_eq_ok_iff, not_lt] at h
  obtain ⟨-, bs, -, record, hr, hv, hstop, ⟨⟩⟩ := h
  exact ⟨DirectoryRecord.parse_method hr, UInt16.not_lt.mp hv, hstop⟩

theorem parse_of_recordAt (h : recordAt buffer pos = .ok record) :
    DirectoryRecord.parse (buffer.toList.field pos 46) = .ok record := by
  have hfixed : DirectoryRecord.fixedSize = 46 := rfl
  simp only [recordAt, bind_eq_ok_iff, guard_eq_ok_iff] at h
  obtain ⟨hlen, bs, hbs, record, hr, -, -, ⟨⟩⟩ := h
  rw [Stream.cut_of_le (by omega)] at hbs
  cases hbs
  exact hr

theorem fields_of_record {bytes fixed name rest bs : Bytes} (hbytes : bytes.drop pos =
    fixed ++ (name ++ (rest ++ bs))) (hfixed : fixed.length = 46)
    (hname : name.length = record.nameLength.toNat)
    (hrest : rest.length = record.extraLength.toNat + record.commentLength.toNat) :
    bytes.field pos 46 = fixed ∧ bytes.field (pos + 46) record.nameLength.toNat = name ∧
      bytes.field (pos + 46 + record.nameLength.toNat) record.extraLength.toNat =
        rest.take record.extraLength.toNat ∧
      bytes.drop (pos + record.totalSize) = bs := by
  have htotal : record.totalSize = 46 + record.nameLength.toNat + rest.length := by
    rw [hrest, DirectoryRecord.totalSize, DirectoryRecord.fixedSize]
    omega
  have hafter : bytes.drop (pos + 46) = name ++ (rest ++ bs) := by
    rw [← List.drop_drop, hbytes, List.drop_left' hfixed]
  have hextra : bytes.drop (pos + 46 + record.nameLength.toNat) = rest ++ bs := by
    rw [← List.drop_drop, hafter, List.drop_left' hname]
  refine ⟨?_, ?_, ?_, ?_⟩
  · rw [Bytes.field, hbytes, List.take_left' hfixed]
  · rw [Bytes.field, hafter, List.take_left' hname]
  · rw [Bytes.field, hextra, List.take_append_of_le_length (by omega)]
  · rw [htotal, ← Nat.add_assoc, ← Nat.add_assoc, ← List.drop_drop, hextra, List.drop_left]

theorem split_record (bytes : Bytes) (pos : Nat) (record : DirectoryRecord) : bytes.drop pos =
    bytes.field pos 46 ++ (bytes.field (pos + 46) record.nameLength.toNat ++
      (bytes.field (pos + 46 + record.nameLength.toNat) record.extraLength.toNat ++
        bytes.field (pos + 46 + record.nameLength.toNat + record.extraLength.toNat)
          record.commentLength.toNat)) ++ bytes.drop (pos + record.totalSize) := by
  have htotal : pos + record.totalSize = pos + (46 + (record.nameLength.toNat +
      (record.extraLength.toNat + record.commentLength.toNat))) := by
    rw [DirectoryRecord.totalSize, DirectoryRecord.fixedSize]
    omega
  rw [field_append, field_append, field_append, htotal, Bytes.field, ← List.drop_drop,
    List.take_append_drop]

theorem addAt_eq (h : pos + record.totalSize ≤ buffer.size) : addAt buffer pos record l =
    l.add pos record (buffer.toList.field (pos + 46) record.nameLength.toNat)
      (buffer.toList.field (pos + 46 + record.nameLength.toNat) record.extraLength.toNat) := by
  rw [DirectoryRecord.totalSize, DirectoryRecord.fixedSize] at h
  rw [addAt, DirectoryRecord.fixedSize, Stream.cut_of_le (by omega), Stream.cut_of_le (by omega)]
  rfl

theorem add_error {name extra : Bytes} (h : l.add pos record name extra = .error e) :
    e.class = .structural := by
  unfold add at h
  split at h
  · cases h
    rfl
  split at h
  · cases h
  split at h
  · rename_i he
    cases h
    exact ExtraBlock.parseAll_error he
  · cases h

/-- **Walking through a directory** fails only because it is malformed. -/
theorem parseFrom_error (h : parseFrom buffer pos l = .error e) : e.class = .structural := by
  fun_induction parseFrom buffer pos l with
  | case1 pos l hpos e' hr =>
    cases h
    exact recordAt_error hr
  | case2 pos l hpos record hr e' ha =>
    cases h
    rw [addAt_eq (recordAt_ok hr).2.2] at ha
    exact add_error ha
  | case3 pos l hpos record hr l' ha ih => exact ih h
  | case4 => cases h

end Listing

/-! ## What holds of every listing -/

/-- Whether a listed file is sound: its name is in the pool, normalized, short enough to be written
and without a separator at its end; and its record is one that can be written again. -/
structure ListedFile.Sound (names : NamePool) (f : ListedFile) : Prop where
  held : names.Holds f.name
  normal : normalizeName (names.get f.name) = names.get f.name
  short : (names.get f.name).length < 2 ^ 16
  last : ∃ b, (names.get f.name).getLast? = some b ∧ isSeparator b = false
  method : Method.ofCode f.record.method.code = f.record.method
  version : f.record.versionNeeded &&& 0xFF ≤ maxVersionNeeded

namespace ListedFile

variable {names : NamePool} {f : ListedFile} {record : DirectoryRecord} {name : Bytes}

theorem Sound.push (h : f.Sound names) (name : Bytes) : f.Sound (names.push name).2 := by
  obtain ⟨held, normal, short, last, method, version⟩ := h
  rw [← NamePool.get_push held] at normal short last
  exact ⟨held.push, normal, short, last, method, version⟩

theorem sound_push (hsize : names.size + name.length < 2 ^ 32) (hshort : name.length < 2 ^ 16)
    (hlast : ∃ b, name.getLast? = some b ∧ isSeparator b = false)
    (hmethod : Method.ofCode record.method.code = record.method)
    (hversion : record.versionNeeded &&& 0xFF ≤ maxVersionNeeded) (mtime : Option UInt64) :
    (ListedFile.mk record (names.push name).1 mtime).Sound (names.push name).2 := by
  have hget : (names.push name).2.get (names.push name).1 = normalizeName name :=
    NamePool.get_push_self hsize
  refine ⟨NamePool.holds_push_self _ _, ?_, ?_, ?_, hmethod, hversion⟩
  · rw [hget, normalizeName_idem]
  · rw [hget, length_normalizeName]
    exact hshort
  · obtain ⟨b, hb, hsep⟩ := hlast
    rw [hget, normalizeName, List.getLast?_map, hb]
    exact ⟨normalizeByte b, rfl, (isSeparator_normalizeByte b).trans hsep⟩

end ListedFile

/-- The size of the record of a listed file in a directory that is written again. -/
def ListedFile.recordSize (names : NamePool) (f : ListedFile) : Nat :=
  46 + (names.get f.name).length

namespace Listing

variable {buffer : Stream} {pos : Nat} {record : DirectoryRecord} {l l' : Listing} {name : Bytes}

/-- Whether a listing is one of `size` bytes of a directory: all its files are sound, and their
records and names take no more room than that. -/
structure Sound (l : Listing) (size : Nat) : Prop where
  files : ∀ f ∈ l.files.toList, f.Sound l.names
  records : (l.files.toList.map fun f => f.recordSize l.names).sum ≤ size
  names : l.names.size ≤ size

theorem Sound.mono {m n : Nat} (h : l.Sound m) (hmn : m ≤ n) : l.Sound n :=
  ⟨h.files, h.records.trans hmn, h.names.trans hmn⟩

/-- The listing with one more file of the given record, name and time. -/
def push (l : Listing) (record : DirectoryRecord) (name : Bytes) (mtime : Option UInt64) :
    Listing :=
  ⟨(l.names.push name).2, l.files.push ⟨record, (l.names.push name).1, mtime⟩, l.markers⟩

theorem Sound.push {m : Nat} (h : l.Sound m) (hm : m + name.length < 2 ^ 32)
    (hshort : name.length < 2 ^ 16) (hlast : ∃ b, name.getLast? = some b ∧ isSeparator b = false)
    (hmethod : Method.ofCode record.method.code = record.method)
    (hversion : record.versionNeeded &&& 0xFF ≤ maxVersionNeeded) (mtime : Option UInt64) :
    (l.push record name mtime).Sound (m + 46 + name.length) := by
  have hsize : l.names.size + name.length < 2 ^ 32 := by
    have := h.names
    omega
  have hget : (l.names.push name).2.get (l.names.push name).1 = normalizeName name :=
    NamePool.get_push_self hsize
  have hfiles : (l.push record name mtime).files.toList =
      l.files.toList ++ [⟨record, (l.names.push name).1, mtime⟩] := Array.toList_push
  refine ⟨fun f hf => ?_, ?_, ?_⟩
  · rw [hfiles, List.mem_append, List.mem_singleton] at hf
    rcases hf with hf | rfl
    · exact (h.files f hf).push name
    · exact ListedFile.sound_push hsize hshort hlast hmethod hversion mtime
  · rw [hfiles, List.map_append, List.sum_append, List.map_singleton, List.sum_singleton]
    have hold : (l.files.toList.map fun f => f.recordSize (l.names.push name).2) =
        l.files.toList.map fun f => f.recordSize l.names :=
      List.map_congr_left fun f hf => by
        rw [ListedFile.recordSize, NamePool.get_push (h.files f hf).held, ListedFile.recordSize]
    show (l.files.toList.map fun f => f.recordSize (l.names.push name).2).sum +
      (46 + (NamePool.get (l.names.push name).2 (l.names.push name).1).length) ≤ _
    rw [hold, hget, length_normalizeName]
    have := h.records
    omega
  · show (l.names.push name).2.size ≤ _
    rw [NamePool.size_push]
    have := h.names
    omega

/-- Whether the files of a listing are these, in order: each with its record and time, and with a
place in the pool where its name stands normalized. -/
def Shows (l : Listing) (files : List (DirectoryRecord × Bytes × Option UInt64)) : Prop :=
  List.Forall₂ (fun x f => f.record = x.1 ∧ f.mtime = x.2.2 ∧ l.names.Holds f.name ∧
    l.names.get f.name = normalizeName x.2.1) files l.files.toList

theorem Shows.push {files : List (DirectoryRecord × Bytes × Option UInt64)} (h : l.Shows files)
    (hroom : l.names.size + name.length < 2 ^ 32) (record : DirectoryRecord)
    (mtime : Option UInt64) :
    (l.push record name mtime).Shows (files ++ [(record, name, mtime)]) := by
  have hlist : (l.push record name mtime).files.toList =
      l.files.toList ++ [⟨record, (l.names.push name).1, mtime⟩] := Array.toList_push
  rw [Shows, hlist]
  refine List.rel_append (h.imp fun x f hf => ?_) (.cons ⟨rfl, rfl, ?_, ?_⟩ .nil)
  · obtain ⟨hrecord, hmtime, hheld, hget⟩ := hf
    exact ⟨hrecord, hmtime, hheld.push, (NamePool.get_push hheld).trans hget⟩
  · exact NamePool.holds_push_self _ _
  · exact NamePool.get_push_self hroom

theorem add_ok {extra : Bytes} (h : l.add pos record name extra = .ok l') :
    ∃ b, name.getLast? = some b ∧ (isSeparator b = true ∧ l' = { l with markers := l.markers + 1 } ∨
      isSeparator b = false ∧ ∃ blocks, ExtraBlock.parseAll extra = .ok blocks ∧
        l' = l.push record name (ExtraBlock.modificationTime blocks)) := by
  unfold add at h
  split at h
  · cases h
  rename_i b hb
  refine ⟨b, hb, ?_⟩
  split at h
  · rename_i hsep
    cases h
    exact .inl ⟨hsep, rfl⟩
  · rename_i hsep
    split at h
    · cases h
    rename_i blocks hblocks
    cases h
    exact .inr ⟨eq_false_of_ne_true hsep, blocks, hblocks, rfl⟩

theorem Sound.parseFrom (h : l.Sound pos) (hpos : pos ≤ buffer.size) (hsize : buffer.size < 2 ^ 32)
    (h' : Listing.parseFrom buffer pos l = .ok l') : l'.Sound buffer.size := by
  fun_induction Listing.parseFrom buffer pos l with
  | case1 => cases h'
  | case2 => cases h'
  | case3 pos l hlt record hr l₁ ha ih =>
    obtain ⟨hmethod, hversion, hstop⟩ := recordAt_ok hr
    rw [addAt_eq hstop] at ha
    have htotal : record.totalSize = 46 + record.nameLength.toNat + record.extraLength.toNat +
        record.commentLength.toNat := rfl
    have hname : (buffer.toList.field (pos + 46) record.nameLength.toNat).length =
        record.nameLength.toNat := Stream.length_field (by omega)
    refine ih ?_ hstop h'
    obtain ⟨b, hb, ⟨-, rfl⟩ | ⟨hsep, blocks, -, rfl⟩⟩ := add_ok ha
    · have hmarked : Sound { l with markers := l.markers + 1 } pos := ⟨h.files, h.records, h.names⟩
      exact hmarked.mono (by omega)
    · refine (h.push (by omega) ?_ ⟨b, hb, hsep⟩ hmethod hversion _).mono (by omega)
      rw [hname]
      exact record.nameLength.toNat_lt
  | case4 pos l hge =>
    cases h'
    exact h.mono hpos

/-- **Every listing is sound**, and its files take no more room than the directory. -/
theorem parse_sound (hsize : buffer.size < 2 ^ 32) (h : parse buffer = .ok l) :
    l.Sound buffer.size :=
  Sound.parseFrom (l := {}) ⟨nofun, Nat.zero_le _, Nat.zero_le _⟩ (Nat.zero_le _) hsize h

end Listing

end PakIndex
