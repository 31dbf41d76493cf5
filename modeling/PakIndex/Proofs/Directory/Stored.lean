import PakIndex.Proofs.Directory
import PakIndex.Proofs.Layout.ExtraField

/-!
# The grammar of directories

* `StoredRecord`: a record as it stands in a directory, with its name, extra field and comment.
* `StoredRecord.encodeAll`: a directory as records, one after the other;
  **`encodeAll_injective`**: as no other records.
* `Listing.parseFrom_stored`: the walk passes over records and pushes their files.
* `Listing.Lists`: what a listing says about records; **`Listing.ofStored_lists`**: it is what the
  walk finds.
* **`Listing.parse_eq_ok_iff`**: exactly the directories that consist of records are listed.
* **`Listing.parse_grammar`**: every list of records is listed as it stands, and what is listed is
  one list of records and no other.
-/

namespace PakIndex

open Bytes

/-- Whether a name marks a folder: it ends in a separator. -/
def marksFolder (name : Bytes) : Bool := name.getLast?.any isSeparator

/-- A record as it stands in a directory: a fixed part with the lengths of the name, the extra field
and the comment behind it. The name is not empty, and unless it marks a folder, the extra field
consists of whole blocks. -/
@[ext]
structure StoredRecord where
  fixed : DirectoryRecord
  name : Bytes
  extra : Bytes
  comment : Bytes
  nameLength : fixed.nameLength.toNat = name.length
  extraLength : fixed.extraLength.toNat = extra.length
  commentLength : fixed.commentLength.toNat = comment.length
  /-- Every number of a method stands for one method. -/
  method : Method.ofCode fixed.method.code = fixed.method
  version : fixed.versionNeeded &&& 0xFF ≤ maxVersionNeeded
  named : name ≠ []
  blocks : marksFolder name = false → ∃ blocks, ExtraBlock.ConsistsOf extra blocks

namespace StoredRecord

variable {r r' : StoredRecord} {rs rs' : List StoredRecord} {bs bs' : Bytes}

/-- Whether a record only marks a folder. -/
def isMarker (r : StoredRecord) : Bool := marksFolder r.name

/-- The bytes of a record. -/
def encode (r : StoredRecord) : Bytes := r.fixed.fixedBytes ++ (r.name ++ (r.extra ++ r.comment))

/-- The bytes of records, one after the other. -/
def encodeAll (rs : List StoredRecord) : Bytes := rs.flatMap encode

/-- Whether a time is the one that the blocks of a record carry. -/
def Carries (r : StoredRecord) (time : Option UInt64) : Prop :=
  ∃ blocks, ExtraBlock.ConsistsOf r.extra blocks ∧ time = ExtraBlock.modificationTime blocks

/-- The time that is read off a record. -/
def mtime (r : StoredRecord) : Option UInt64 :=
  (ExtraBlock.parseAll r.extra).toOption.bind ExtraBlock.modificationTime

@[simp] theorem length_encode (r : StoredRecord) : r.encode.length = r.fixed.totalSize := by
  rw [encode, DirectoryRecord.totalSize, r.nameLength, r.extraLength, r.commentLength]
  simp only [List.length_append, DirectoryRecord.length_fixedBytes, DirectoryRecord.fixedSize,
    Nat.add_assoc]

theorem fixedSize_le (r : StoredRecord) : 46 ≤ r.fixed.totalSize := by
  rw [DirectoryRecord.totalSize, DirectoryRecord.fixedSize]
  omega

theorem encode_ne_nil (r : StoredRecord) : r.encode ≠ [] := by
  have hlen := r.length_encode
  have hle := r.fixedSize_le
  rintro h
  rw [h, List.length_nil] at hlen
  omega

theorem encodeAll_cons (r : StoredRecord) (rs : List StoredRecord) :
    encodeAll (r :: rs) = r.encode ++ encodeAll rs := List.flatMap_cons

theorem encodeAll_append (rs rs' : List StoredRecord) :
    encodeAll (rs ++ rs') = encodeAll rs ++ encodeAll rs' := List.flatMap_append

/-- The records of files among records. -/
def files (rs : List StoredRecord) : List StoredRecord := rs.filter fun r => !r.isMarker

/-- The names of the files among records, normalized and back to back. -/
def fileNames (rs : List StoredRecord) : Bytes := (files rs).flatMap fun r => normalizeName r.name

theorem files_append (rs rs' : List StoredRecord) : files (rs ++ rs') = files rs ++ files rs' :=
  List.filter_append ..

theorem fileNames_append (rs rs' : List StoredRecord) :
    fileNames (rs ++ rs') = fileNames rs ++ fileNames rs' := by
  rw [fileNames, files_append, List.flatMap_append]
  rfl

theorem files_singleton (r : StoredRecord) : files [r] = if r.isMarker then [] else [r] := by
  rw [files, List.filter_singleton]
  cases r.isMarker <;> rfl

theorem fileNames_singleton (r : StoredRecord) :
    fileNames [r] = if r.isMarker then [] else normalizeName r.name := by
  rw [fileNames, files_singleton]
  cases r.isMarker
  · exact List.flatMap_singleton _ r
  · rfl

theorem name_length_le (r : StoredRecord) : r.name.length ≤ r.fixed.totalSize := by
  rw [← r.nameLength, DirectoryRecord.totalSize]
  omega

theorem length_fileNames_le (rs : List StoredRecord) :
    (fileNames rs).length ≤ (encodeAll rs).length := by
  induction rs using List.reverseRecOn with
  | nil => exact le_rfl
  | append_singleton rs r ih =>
    have hname := r.name_length_le
    have hadded : (if r.isMarker then [] else normalizeName r.name).length ≤ r.name.length := by
      split
      · exact Nat.zero_le _
      · exact (length_normalizeName _).le
    have hone : (encodeAll [r]).length = r.fixed.totalSize := by
      rw [encodeAll_cons, List.length_append, length_encode]
      rfl
    rw [fileNames_append, fileNames_singleton, encodeAll_append, List.length_append,
      List.length_append, hone]
    omega

/-! ## One way to be read -/

/-- **Where a record ends** follows from its bytes, and so does what it says. -/
theorem eq_of_append (h : r.encode ++ bs = r'.encode ++ bs') : r = r' ∧ bs = bs' := by
  -- Both start with one fixed part, which has the lengths of all that follows it.
  have hfixed : r.fixed = r'.fixed := by
    have hparse : ∀ (r : StoredRecord) bs, DirectoryRecord.parse (r.encode ++ bs) = .ok r.fixed :=
      fun r bs => by rw [encode, List.append_assoc, DirectoryRecord.parse_fixedBytes r.method]
    have := hparse r bs
    rw [h, hparse r' bs'] at this
    exact (Except.ok.inj this).symm
  have hlen : ∀ {a b : Bytes} {n m : UInt16}, n.toNat = a.length → m.toNat = b.length → n = m →
      a.length = b.length := fun ha hb hnm => by rw [← ha, ← hb, hnm]
  have hname := hlen r.nameLength r'.nameLength (by rw [hfixed])
  have hextra := hlen r.extraLength r'.extraLength (by rw [hfixed])
  have hcomment := hlen r.commentLength r'.commentLength (by rw [hfixed])
  rw [encode, encode, hfixed] at h
  simp only [List.append_assoc, List.append_cancel_left_eq] at h
  obtain ⟨hname, h⟩ := List.append_inj h hname
  obtain ⟨hextra, h⟩ := List.append_inj h hextra
  obtain ⟨hcomment, h⟩ := List.append_inj h hcomment
  exact ⟨StoredRecord.ext hfixed hname hextra hcomment, h⟩

/-- **A directory is made of its records** and of no others. -/
theorem encodeAll_injective (h : encodeAll rs = encodeAll rs') : rs = rs' := by
  induction rs generalizing rs' with
  | nil =>
    cases rs' with
    | nil => rfl
    | cons r' rs' => exact absurd (List.append_eq_nil_iff.mp h.symm).1 r'.encode_ne_nil
  | cons r rs ih =>
    cases rs' with
    | nil => exact absurd (List.append_eq_nil_iff.mp h).1 r.encode_ne_nil
    | cons r' rs' =>
      rw [encodeAll_cons, encodeAll_cons] at h
      obtain ⟨rfl, hrest⟩ := eq_of_append h
      rw [ih hrest]

/-! ## Times -/

theorem mtime_eq {blocks : List ExtraBlock} (h : ExtraBlock.ConsistsOf r.extra blocks) :
    r.mtime = ExtraBlock.modificationTime blocks := by
  rw [mtime, ExtraBlock.parseAll_eq_ok_iff.mpr h]
  rfl

theorem carries_mtime (h : r ∈ files rs) : r.Carries r.mtime := by
  have hmarker : marksFolder r.name = false := by
    simpa [isMarker] using (List.mem_filter.mp h).2
  obtain ⟨blocks, hblocks⟩ := r.blocks hmarker
  exact ⟨blocks, hblocks, r.mtime_eq hblocks⟩

end StoredRecord

namespace Listing

variable {buffer : Stream} {pos : Nat} {l l' : Listing} {r : StoredRecord}
  {rs before : List StoredRecord} {rest : Bytes}

/-! ## Walking over records -/

/-- The listing with one more record. -/
def pushStored (l : Listing) (r : StoredRecord) : Listing :=
  if r.isMarker then { l with markers := l.markers + 1 } else l.push r.fixed r.name r.mtime

/-- The listing of records. -/
def ofStored (rs : List StoredRecord) : Listing := rs.foldl pushStored {}

theorem recordAt_of_fixedBytes (hd : buffer.toList.drop pos = r.fixed.fixedBytes ++ rest) :
    recordAt buffer pos = if pos + r.fixed.totalSize > buffer.size
      then .error (.directoryCorrupt (.recordPastEnd pos (pos + r.fixed.totalSize) buffer.size))
      else .ok r.fixed := by
  have hfixed : DirectoryRecord.fixedSize = 46 := rfl
  have hlen : buffer.size - pos = 46 + rest.length := by
    rw [← Stream.length_toList, ← List.length_drop, hd, List.length_append,
      DirectoryRecord.length_fixedBytes]
  have hbytes : buffer.toList.field pos 46 = r.fixed.fixedBytes := by
    rw [Bytes.field, hd, List.take_left' (DirectoryRecord.length_fixedBytes _)]
  have hparse : DirectoryRecord.parse r.fixed.fixedBytes = .ok r.fixed := by
    rw [← List.append_nil r.fixed.fixedBytes, DirectoryRecord.parse_fixedBytes r.method]
  have hversion : ¬ r.fixed.versionNeeded &&& 0xFF > maxVersionNeeded :=
    UInt16.not_lt.mpr r.version
  have hcut : buffer.cut pos DirectoryRecord.fixedSize = .ok r.fixed.fixedBytes := by
    rw [Stream.cut_of_le (by omega), hfixed, hbytes]
  by_cases hstop : pos + r.fixed.totalSize > buffer.size
  · rw [if_pos hstop]
    simp only [recordAt, bind_eq_error_iff, guard_eq_error_iff]
    exact .inr ⟨by omega, .inr ⟨_, hcut, .inr ⟨_, hparse, .inr ⟨hversion, .inl ⟨hstop, rfl⟩⟩⟩⟩⟩
  · rw [if_neg hstop]
    simp only [recordAt, bind_eq_ok_iff, guard_eq_ok_iff]
    exact ⟨by omega, _, hcut, _, hparse, hversion, hstop, rfl⟩

theorem add_stored (l : Listing) (pos : Nat) (r : StoredRecord) :
    l.add pos r.fixed r.name r.extra = .ok (l.pushStored r) := by
  obtain ⟨b, hb⟩ : ∃ b, r.name.getLast? = some b :=
    Option.ne_none_iff_exists'.mp (List.getLast?_eq_none_iff.not.mpr r.named)
  have hmarker : r.isMarker = isSeparator b := by
    rw [StoredRecord.isMarker, marksFolder, hb, Option.any_some]
  rw [add, hb, pushStored, hmarker]
  cases hsep : isSeparator b with
  | true =>
    simp only [hsep]
    rfl
  | false =>
    obtain ⟨blocks, hblocks⟩ := r.blocks (hmarker.trans hsep)
    rw [r.mtime_eq hblocks]
    simp only [hsep, ExtraBlock.parseAll_eq_ok_iff.mpr hblocks]
    rfl

theorem parseFrom_stored_cons (hd : buffer.toList.drop pos = r.encode ++ rest) :
    buffer.toList.drop (pos + r.fixed.totalSize) = rest ∧
      parseFrom buffer pos l = parseFrom buffer (pos + r.fixed.totalSize) (l.pushStored r) := by
  have hlen : buffer.size - pos = r.fixed.totalSize + rest.length := by
    rw [← Stream.length_toList, ← List.length_drop, hd, List.length_append,
      StoredRecord.length_encode]
  have hle := r.fixedSize_le
  have hrest : (r.extra ++ r.comment).length =
      r.fixed.extraLength.toNat + r.fixed.commentLength.toNat := by
    rw [List.length_append, r.extraLength, r.commentLength]
  have hbytes : buffer.toList.drop pos =
      r.fixed.fixedBytes ++ (r.name ++ ((r.extra ++ r.comment) ++ rest)) := by
    rw [hd, StoredRecord.encode]
    simp only [List.append_assoc]
  obtain ⟨-, hname, hextra, hnext⟩ := fields_of_record hbytes
    (DirectoryRecord.length_fixedBytes _) r.nameLength.symm hrest
  rw [List.take_left' r.extraLength.symm] at hextra
  refine ⟨hnext, ?_⟩
  rw [parseFrom, dif_pos (by omega), recordAt_of_fixedBytes hbytes, if_neg (by omega)]
  simp only [addAt_eq (show pos + r.fixed.totalSize ≤ buffer.size by omega), hname, hextra,
    add_stored]

/-- **The walk passes over records** and pushes what they say. -/
theorem parseFrom_stored (hd : buffer.toList.drop pos = StoredRecord.encodeAll rs ++ rest) :
    ∃ stop, buffer.toList.drop stop = rest ∧
      parseFrom buffer pos l = parseFrom buffer stop (rs.foldl pushStored l) := by
  induction rs generalizing pos l with
  | nil => exact ⟨pos, hd, rfl⟩
  | cons r rs ih =>
    rw [StoredRecord.encodeAll_cons, List.append_assoc] at hd
    obtain ⟨hnext, hstep⟩ := parseFrom_stored_cons (l := l) hd
    obtain ⟨stop, hstop, hwalk⟩ := ih (l := l.pushStored r) hnext
    exact ⟨stop, hstop, hstep.trans hwalk⟩

theorem parseFrom_end (hd : buffer.toList.drop pos = []) : parseFrom buffer pos l = .ok l := by
  rw [List.drop_eq_nil_iff, Stream.length_toList] at hd
  rw [parseFrom, dif_neg (by omega)]

theorem parse_stored_append (h : buffer.toList = StoredRecord.encodeAll rs ++ rest) :
    ∃ stop, buffer.toList.drop stop = rest ∧
      parse buffer = parseFrom buffer stop (ofStored rs) :=
  parseFrom_stored (List.drop_zero.trans h)

theorem parse_stored (h : buffer.toList = StoredRecord.encodeAll rs) :
    parse buffer = .ok (ofStored rs) := by
  obtain ⟨stop, hstop, hwalk⟩ := parse_stored_append (h.trans (List.append_nil _).symm)
  exact hwalk.trans (parseFrom_end hstop)

/-! ## What is listed consists of records -/

theorem stored_of_addAt {record : DirectoryRecord} (hr : recordAt buffer pos = .ok record)
    (ha : addAt buffer pos record l = .ok l') : ∃ r : StoredRecord, r.fixed = record ∧
      buffer.toList.drop pos = r.encode ++ buffer.toList.drop (pos + record.totalSize) := by
  obtain ⟨hmethod, hversion, hstop⟩ := recordAt_ok hr
  have hfixed : record.fixedBytes = buffer.toList.field pos 46 := by
    rw [DirectoryRecord.fixedBytes_of_parse (parse_of_recordAt hr)]
    exact List.take_of_length_le (List.length_take_le _ _)
  rw [addAt_eq hstop] at ha
  obtain ⟨b, hb, hadded⟩ := add_ok ha
  have htotal : record.totalSize = 46 + record.nameLength.toNat + record.extraLength.toNat +
    record.commentLength.toNat := rfl
  have hsplit := split_record buffer.toList pos record
  rw [← hfixed] at hsplit
  refine ⟨{
    fixed := record
    name := buffer.toList.field (pos + 46) record.nameLength.toNat
    extra := buffer.toList.field (pos + 46 + record.nameLength.toNat) record.extraLength.toNat
    comment := buffer.toList.field
      (pos + 46 + record.nameLength.toNat + record.extraLength.toNat) record.commentLength.toNat
    nameLength := (Stream.length_field (by omega)).symm
    extraLength := (Stream.length_field (by omega)).symm
    commentLength := (Stream.length_field (by omega)).symm
    method := hmethod
    version := hversion
    named := fun h => ?_
    blocks := fun h => ?_ }, rfl, hsplit⟩
  · rw [h] at hb
    cases hb
  · rw [marksFolder, hb, Option.any_some] at h
    rcases hadded with ⟨hsep, -⟩ | ⟨-, blocks, hblocks, -⟩
    · cases hsep.symm.trans h
    · exact ⟨blocks, ExtraBlock.parseAll_eq_ok_iff.mp hblocks⟩

theorem stored_of_parseFrom (h : parseFrom buffer pos l = .ok l') :
    ∃ rs, buffer.toList.drop pos = StoredRecord.encodeAll rs := by
  fun_induction parseFrom buffer pos l with
  | case1 => cases h
  | case2 => cases h
  | case3 pos l hlt record hr l₁ ha ih =>
    obtain ⟨r, rfl, hbytes⟩ := stored_of_addAt hr ha
    obtain ⟨rs, hrs⟩ := ih h
    exact ⟨r :: rs, by rw [hbytes, hrs, StoredRecord.encodeAll_cons]⟩
  | case4 pos l hge =>
    refine ⟨[], List.drop_eq_nil_of_le ?_⟩
    rw [Stream.length_toList]
    omega

/-- **Exactly the directories that consist of records are listed.** -/
theorem parse_eq_ok_iff :
    parse buffer = .ok l ↔ ∃ rs, buffer.toList = StoredRecord.encodeAll rs ∧ l = ofStored rs := by
  constructor
  · intro h
    obtain ⟨rs, hrs⟩ := stored_of_parseFrom h
    exact ⟨rs, hrs, Except.ok.inj (h.symm.trans (parse_stored hrs))⟩
  · rintro ⟨rs, hrs, rfl⟩
    exact parse_stored hrs

/-! ## What is listed of records -/

/-- What a listing says about records: it has the files among them, in order, each with its fixed
part, its time and a place in the pool where its name stands normalized; the pool has the names of
these files and nothing else; and the folder markers are counted. -/
structure Lists (l : Listing) (rs : List StoredRecord) : Prop where
  files : List.Forall₂ (fun r f => f.record = r.fixed ∧ r.Carries f.mtime ∧
    l.names.Holds f.name ∧ l.names.get f.name = normalizeName r.name)
      (StoredRecord.files rs) l.files.toList
  names : l.names.toList = StoredRecord.fileNames rs
  markers : l.markers = rs.countP StoredRecord.isMarker

theorem ofStored_concat (rs : List StoredRecord) (r : StoredRecord) :
    ofStored (rs ++ [r]) = (ofStored rs).pushStored r := by
  rw [ofStored, List.foldl_append]
  rfl

theorem ofStored_counts (rs : List StoredRecord) :
    (ofStored rs).files.toList.length = (StoredRecord.files rs).length ∧
      (ofStored rs).names.toList = StoredRecord.fileNames rs ∧
      (ofStored rs).markers = rs.countP StoredRecord.isMarker := by
  induction rs using List.reverseRecOn with
  | nil => exact ⟨rfl, rfl, rfl⟩
  | append_singleton rs r ih =>
    obtain ⟨hfiles, hnames, hmarkers⟩ := ih
    rw [ofStored_concat, StoredRecord.files_append, StoredRecord.files_singleton,
      StoredRecord.fileNames_append, StoredRecord.fileNames_singleton, List.length_append,
      List.countP_append, List.countP_singleton, ← hfiles, ← hnames, ← hmarkers, pushStored]
    cases r.isMarker
    · exact ⟨(congrArg List.length Array.toList_push).trans List.length_append,
        NamePool.toList_push, rfl⟩
    · exact ⟨rfl, (List.append_nil _).symm, rfl⟩

theorem ofStored_shows (hsize : (StoredRecord.encodeAll rs).length < 2 ^ 32) :
    (ofStored rs).Shows ((StoredRecord.files rs).map fun r => (r.fixed, r.name, r.mtime)) := by
  -- From the last record on: its name ends the pool, and the places of the others stay as they are.
  induction rs using List.reverseRecOn with
  | nil => exact .nil
  | append_singleton rs r ih =>
    rw [StoredRecord.encodeAll_append, List.length_append, StoredRecord.encodeAll_cons,
      List.length_append, StoredRecord.length_encode] at hsize
    have hroom : (ofStored rs).names.size + r.name.length < 2 ^ 32 := by
      rw [← NamePool.length_toList, (ofStored_counts rs).2.1]
      have h₁ := StoredRecord.length_fileNames_le rs
      have h₂ := r.name_length_le
      omega
    rw [ofStored_concat, StoredRecord.files_append, StoredRecord.files_singleton, List.map_append,
      pushStored]
    cases r.isMarker
    · exact (ih (by omega)).push hroom _ _
    · exact (List.append_nil _).symm ▸ ih (by omega)

theorem ofStored_lists (hsize : (StoredRecord.encodeAll rs).length < 2 ^ 32) :
    (ofStored rs).Lists rs := by
  obtain ⟨-, hnames, hmarkers⟩ := ofStored_counts rs
  refine ⟨?_, hnames, hmarkers⟩
  refine ((List.forall₂_and_left _ _).mpr ⟨fun r hr => StoredRecord.carries_mtime hr,
    List.forall₂_map_left_iff.mp (ofStored_shows hsize)⟩).imp fun r f h => ?_
  obtain ⟨hcarries, hrecord, hmtime, hheld, hget⟩ := h
  exact ⟨hrecord, hmtime ▸ hcarries, hheld, hget⟩

/-- **Directories are read by a grammar.** Every list of records, one after the other in less than
4 GiB, is listed as it stands; and every directory that is listed consists of records, down to the
last byte and in one way. -/
theorem parse_grammar (buffer : Stream) :
    (∀ rs, buffer.toList = StoredRecord.encodeAll rs → buffer.size < 2 ^ 32 →
      ∃ l, parse buffer = .ok l ∧ l.Lists rs) ∧
    ∀ l, parse buffer = .ok l → ∃! rs, buffer.toList = StoredRecord.encodeAll rs := by
  constructor
  · intro rs hrs hsize
    rw [← Stream.length_toList, hrs] at hsize
    exact ⟨_, parse_stored hrs, ofStored_lists hsize⟩
  · intro l hl
    obtain ⟨rs, hrs, -⟩ := parse_eq_ok_iff.mp hl
    exact ⟨rs, hrs, fun rs' hrs' => StoredRecord.encodeAll_injective (hrs'.symm.trans hrs)⟩

end Listing

end PakIndex
