import PakIndex.Proofs.Index.Written

/-!
# Packed archives

* `PackedFile`: a file that is put into an archive, with its local header, payload and record.
* `Packed.archive`: the bytes of an archive, written from front to back.
* **`Packed.written_of_unique`**, `Packed.written`: such an archive is laid out as the reader
  expects it.
* `Packed.placed_spec`: where the local headers and payloads of the files stand.
-/

namespace PakIndex

/-- A file that is put into an archive. -/
structure PackedFile where
  name : Bytes
  /-- The extra field of the local header. -/
  extra : Bytes
  payload : Bytes
  methodCode : UInt16
  crc32 : UInt32
  uncompressedSize : UInt32
  versionMadeBy : UInt16
  versionNeeded : UInt16
  flags : UInt16
  time : UInt16
  date : UInt16
  diskNumberStart : UInt16
  internalAttributes : UInt16
  attributes : UInt32
  deriving Repr, DecidableEq, Inhabited

namespace PackedFile

/-- The method that the code of a file stands for. -/
def method (f : PackedFile) : Method := .ofCode f.methodCode

/-- Checksum and sizes of a file. -/
def descriptor (f : PackedFile) : Descriptor :=
  ⟨f.crc32, .ofNat f.payload.length, f.uncompressedSize⟩

/-- The path that the name of a file spells. -/
def path (f : PackedFile) : Path := segments (normalizeName f.name)

/-- The local header of a file. -/
def localHeader (f : PackedFile) : LocalHeader where
  versionNeeded := f.versionNeeded
  flags := f.flags
  method := f.method
  time := f.time
  date := f.date
  descriptor := f.descriptor
  nameLength := .ofNat f.name.length
  extraLength := .ofNat f.extra.length

/-- The directory record of a file whose local header stands at `pos`. -/
def record (f : PackedFile) (pos : Nat) : DirectoryRecord where
  versionMadeBy := f.versionMadeBy
  versionNeeded := f.versionNeeded
  flags := f.flags
  method := f.method
  time := f.time
  date := f.date
  descriptor := f.descriptor
  nameLength := .ofNat f.name.length
  extraLength := 0
  commentLength := 0
  diskNumberStart := f.diskNumberStart
  internalAttributes := f.internalAttributes
  attributes := f.attributes
  headerOffset := .ofNat pos

/-- The local header of a file with its name and extra field, and the payload. -/
def bytes (f : PackedFile) : Bytes := f.localHeader.encode f.name f.extra ++ f.payload

/-- Where the payload of a file stands whose local header stands at `pos`. -/
def payloadOffset (f : PackedFile) (pos : Nat) : Nat := pos + 30 + f.name.length + f.extra.length

/-- Whether a file can be put into an archive: its name is not empty and does not end in a
separator, name and extra field fit their length fields, the version is one that is understood, and
a payload without compression has one size. -/
structure Valid (f : PackedFile) : Prop where
  last : ∃ b, f.name.getLast? = some b ∧ isSeparator b = false
  short : f.name.length < 2 ^ 16
  extraShort : f.extra.length < 2 ^ 16
  version : f.versionNeeded &&& 0xFF ≤ maxVersionNeeded
  stored : f.method.isStored = true → f.uncompressedSize.toNat = f.payload.length

theorem length_bytes (f : PackedFile) :
    f.bytes.length = 30 + f.name.length + f.extra.length + f.payload.length := by
  rw [bytes, List.length_append, LocalHeader.length_encode]

end PackedFile

namespace Packed

/-! ## The bytes of an archive -/

/-- Local headers and payloads, one file after the other. -/
def payloads (files : List PackedFile) : Bytes := files.flatMap PackedFile.bytes

/-- The files with the positions of their local headers, of which the first stands at `pos`. -/
def placed : (pos : Nat) → List PackedFile → List (Nat × PackedFile)
  | _, [] => []
  | pos, f :: files => (pos, f) :: placed (pos + f.bytes.length) files

/-- The rows of the directory. -/
def rows (files : List PackedFile) : List Listing.Row :=
  (placed 0 files).map fun (pos, f) => (f.record pos, f.name)

/-- The directory: one record for each file. -/
def directory (files : List PackedFile) : Bytes :=
  (rows files).flatMap fun row => row.1.encode row.2

/-- The trailer of an archive with a comment. -/
def trailer (files : List PackedFile) (comment : Bytes) : Trailer :=
  .singleVolume (.ofNat files.length) (.ofNat (payloads files).length)
    (.ofNat (directory files).length) (.ofNat comment.length)

/-- The bytes of an archive. -/
def archive (files : List PackedFile) (comment : Bytes) : Bytes :=
  payloads files ++ directory files ++ (trailer files comment).encode ++ comment

variable {files : List PackedFile} {f : PackedFile} {comment : Bytes} {pos : Nat}

/-! ## What is laid out -/

theorem map_snd_placed (pos : Nat) (files : List PackedFile) :
    (placed pos files).map Prod.snd = files := by
  induction files generalizing pos with
  | nil => rfl
  | cons f files ih => rw [placed, List.map_cons, ih]

/-- **Where the files stand**: at the positions that belong to them, one after the other. -/
theorem placed_spec {base : Nat} (h : (pos, f) ∈ placed base files) :
    ∃ before after, payloads files = before ++ f.bytes ++ after ∧ pos = base + before.length := by
  induction files generalizing base with
  | nil => cases h
  | cons g files ih =>
    rw [payloads, List.flatMap_cons]
    rcases List.mem_cons.mp h with heq | h
    · cases heq
      exact ⟨[], payloads files, rfl, rfl⟩
    · obtain ⟨before, after, hbytes, hpos⟩ := ih h
      refine ⟨g.bytes ++ before, after, ?_, ?_⟩
      · rw [← payloads, hbytes]
        simp only [List.append_assoc]
      · rw [hpos, List.length_append, Nat.add_assoc]

theorem mem_of_mem_placed {base : Nat} (h : (pos, f) ∈ placed base files) : f ∈ files := by
  rw [← map_snd_placed base files]
  exact List.mem_map.mpr ⟨_, h, rfl⟩

theorem record_writable {f : PackedFile} (hv : f.Valid) (pos : Nat) :
    Listing.Row.Writable (f.record pos, f.name) := by
  refine ⟨hv.short, hv.last, ?_, hv.version⟩
  show Method.ofCode (Method.ofCode f.methodCode).code = _
  rw [Method.code_ofCode]
  rfl

theorem rows_writable (hfiles : ∀ f ∈ files, f.Valid) : ∀ row ∈ rows files, row.Writable := by
  intro row hrow
  obtain ⟨⟨pos, f⟩, hf, rfl⟩ := List.mem_map.mp hrow
  exact record_writable (hfiles f (mem_of_mem_placed hf)) pos

theorem length_archive (files : List PackedFile) (comment : Bytes) :
    (archive files comment).length =
      (payloads files).length + (directory files).length + 22 + comment.length := by
  rw [archive, List.length_append, List.length_append, List.length_append, Trailer.length_encode]

/-- **An archive is laid out as the reader expects it** if its comment does not look like another
trailer. -/
theorem written_of_unique (hfiles : ∀ f ∈ files, f.Valid) (hcomment : comment.length < 2 ^ 16)
    (hsize : (archive files comment).length ≤ maxArchiveSize)
    (hunique : ∀ k, 8 < k → k ≤ comment.length →
      Bytes.field ((trailer files comment).encode ++ comment) k 4 ≠ Trailer.signature) :
    Index.Written (.ofBytes (archive files comment)) (payloads files) (rows files)
      (trailer files comment) comment := by
  have hlen := length_archive files comment
  have hmax : maxArchiveSize = 2 ^ 31 := rfl
  have hdisk : diskNumber (trailer files comment).disk = 0 := show diskNumber 0 = 0 by decide
  refine ⟨?_, ?_, rows_writable hfiles, ⟨hdisk, rfl, rfl⟩, ?_, ?_, ?_, hunique⟩
  · rw [Stream.toList_ofBytes, archive, List.append_assoc, List.append_assoc]
    rfl
  · rw [Stream.size_ofBytes]
    exact hsize
  · exact UInt32.toNat_ofNat_of_lt' (lt_of_le_of_lt (b := 2 ^ 31) (by omega) (by decide))
  · exact UInt32.toNat_ofNat_of_lt' (lt_of_le_of_lt (b := 2 ^ 31) (by omega) (by decide))
  · exact UInt16.toNat_ofNat_of_lt' hcomment

theorem written (hfiles : ∀ f ∈ files, f.Valid) (hcomment : comment.length < 8)
    (hsize : (archive files comment).length ≤ maxArchiveSize) :
    Index.Written (.ofBytes (archive files comment)) (payloads files) (rows files)
      (trailer files comment) comment :=
  written_of_unique hfiles (by omega) hsize fun k h₁ h₂ => by omega

theorem survey_archive (hfiles : ∀ f ∈ files, f.Valid) (hcomment : comment.length < 8)
    (hsize : (archive files comment).length ≤ maxArchiveSize) :
    Index.survey (.ofBytes (archive files comment)) =
      .ok ({ comment }, trailer files comment, Listing.ofRows (rows files)) :=
  Index.survey_written_short (written hfiles hcomment hsize) hcomment rfl

end Packed

end PakIndex
