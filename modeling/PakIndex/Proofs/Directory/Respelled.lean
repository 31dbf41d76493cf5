import PakIndex.Proofs.Directory.Rows

/-!
# Names spelled otherwise

* `Listing.Respelled`: directories that differ only in case and separators of the names in their
  records; **`Listing.parse_respelled`**: they have one listing.
* `Stream.Respelled`: streams with such directories and the same bytes around them.
* `Stream.Alike`: what this leaves of a stream for those who read it from before the directory:
  everything up to the first name of the directory, and the rest in normalized form.
-/

namespace PakIndex

variable {pos len : Nat}

namespace Listing

variable {l : Listing} {record : DirectoryRecord} {name name' extra bs bs' : Bytes}
  {buffer buffer' : Stream}

/-- Whether two directories differ only in how the names are spelled: they consist of the same
records, one after the other, whose names are equal in normalized form. -/
inductive Respelled : Bytes → Bytes → Prop
  | nil : Respelled [] []
  | record {fixed name name' rest bs bs' : Bytes} {record : DirectoryRecord} :
    fixed.length = 46 → DirectoryRecord.parse fixed = .ok record →
    name.length = record.nameLength.toNat →
    rest.length = record.extraLength.toNat + record.commentLength.toNat →
    normalizeName name' = normalizeName name → Respelled bs bs' →
    Respelled (fixed ++ (name ++ (rest ++ bs))) (fixed ++ (name' ++ (rest ++ bs')))

theorem Respelled.normalizeName_eq (h : Respelled bs bs') :
    normalizeName bs' = normalizeName bs := by
  induction h with
  | nil => rfl
  | record _ _ _ _ hname _ ih => simp only [normalizeName_append, hname, ih]

theorem Respelled.length_eq (h : Respelled bs bs') : bs'.length = bs.length :=
  length_eq_of_normalizeName h.normalizeName_eq

theorem Respelled.take_append (h : Respelled bs bs') (rest : Bytes) :
    (bs' ++ rest).take 46 = (bs ++ rest).take 46 := by
  cases h with
  | nil => rfl
  | record hfixed _ _ _ _ _ =>
    rw [List.append_assoc, List.take_left' hfixed, List.append_assoc, List.take_left' hfixed]

theorem Respelled.row (h : Respelled bs bs') (row : Row) (name' : Bytes)
    (hmethod : Method.ofCode row.1.method.code = row.1.method) (hshort : row.2.length < 2 ^ 16)
    (hname : normalizeName name' = normalizeName row.2) :
    Respelled (row.encode ++ bs) (Row.encode (row.1, name') ++ bs') := by
  have hlen : name'.length = row.2.length := length_eq_of_normalizeName hname
  have hparse := DirectoryRecord.parse_fixedPart hmethod row.2 []
  rw [List.append_nil] at hparse
  rw [Row.encode, Row.encode, DirectoryRecord.encode, DirectoryRecord.encode, hlen,
    List.append_assoc, List.append_assoc, ← List.nil_append bs, ← List.nil_append bs']
  exact .record (DirectoryRecord.length_fixedPart _ _) hparse
    (UInt16.toNat_ofNat_of_lt' hshort).symm rfl hname h

/-! ## One listing -/

theorem add_respelled (h : normalizeName name' = normalizeName name) :
    l.add pos record name' extra = l.add pos record name extra := by
  have hlen : name'.length = name.length := length_eq_of_normalizeName h
  have hpush : l.names.push name' = l.names.push name := by
    rw [NamePool.push, NamePool.push, h, hlen]
  have hlast : name'.getLast?.map normalizeByte = name.getLast?.map normalizeByte := by
    rw [← List.getLast?_map, ← List.getLast?_map]
    exact congrArg List.getLast? h
  unfold add
  cases hn : name.getLast? with
  | none =>
    rw [hn, Option.map_none, Option.map_eq_none_iff] at hlast
    rw [hlast]
  | some b =>
    obtain ⟨b', hn', hb⟩ := Option.map_eq_some_iff.mp (hlast.trans (congrArg _ hn))
    have hsep : isSeparator b' = isSeparator b := by
      rw [← isSeparator_normalizeByte b', hb, isSeparator_normalizeByte]
    rw [hn']
    simp only [hsep, hpush]

theorem recordAt_congr (hsize : buffer'.size = buffer.size)
    (hfixed : buffer'.toList.field pos 46 = buffer.toList.field pos 46) :
    recordAt buffer' pos = recordAt buffer pos := by
  have hcut :
      buffer'.cut pos DirectoryRecord.fixedSize = buffer.cut pos DirectoryRecord.fixedSize := by
    simp only [Stream.cut, Stream.toList_slice, hsize]
    exact ite_congr rfl (fun _ => congrArg Except.ok hfixed) fun _ => rfl
  rw [recordAt, recordAt, hsize, hcut]

/-- **Directories that are spelled otherwise** have one listing, whatever comes first in it. -/
theorem parseFrom_respelled (h : Respelled bs bs') (hbs : buffer.toList.drop pos = bs)
    (hbs' : buffer'.toList.drop pos = bs') (hsize : buffer'.size = buffer.size) :
    parseFrom buffer' pos l = parseFrom buffer pos l := by
  -- Along the records: their fixed parts are the same, and so are the places of what follows them.
  induction h generalizing pos l with
  | nil =>
    have hend : buffer.size ≤ pos := by
      rwa [List.drop_eq_nil_iff, Stream.length_toList] at hbs
    rw [parseFrom, parseFrom, dif_neg (by omega), dif_neg (by omega)]
  | @record fixed name name' rest bs bs' record hfixed hparse hname hrest hnormal _ ih =>
    have hname' : name'.length = record.nameLength.toNat :=
      (length_eq_of_normalizeName hnormal).trans hname
    have hlen : pos < buffer.size := by
      have := congrArg List.length hbs
      simp only [List.length_drop, Stream.length_toList, List.length_append, hfixed] at this
      omega
    obtain ⟨hfield, hnamed, hextra, hnext⟩ := fields_of_record hbs hfixed hname hrest
    obtain ⟨hfield', hnamed', hextra', hnext'⟩ := fields_of_record hbs' hfixed hname' hrest
    rw [parseFrom, parseFrom, dif_pos hlen, dif_pos (by omega),
      recordAt_congr hsize (hfield'.trans hfield.symm)]
    cases hr : recordAt buffer pos with
    | error e => rfl
    | ok r =>
      have hr' := parse_of_recordAt hr
      rw [hfield, hparse] at hr'
      cases hr'
      have hstop := (recordAt_ok hr).2.2
      have hadd : addAt buffer' pos record l = addAt buffer pos record l := by
        rw [addAt_eq hstop, addAt_eq (by omega), hnamed, hnamed', hextra, hextra',
          add_respelled hnormal]
      simp only [hadd]
      cases addAt buffer pos record l with
      | error e => rfl
      | ok l => exact ih hnext hnext'

theorem parse_respelled (h : Respelled buffer.toList buffer'.toList) :
    parse buffer' = parse buffer := by
  refine parseFrom_respelled h rfl rfl ?_
  rw [← Stream.length_toList, h.length_eq, Stream.length_toList]

end Listing

/-! ## Streams with such directories -/

/-- Whether two streams differ only in how the names in the directory of `size` bytes at `offset`
are spelled. -/
structure Stream.Respelled (offset size : Nat) (s s' : Stream) : Prop where
  before : s'.toList.take offset = s.toList.take offset
  directory : Listing.Respelled (s.toList.field offset size) (s'.toList.field offset size)
  behind : s'.toList.drop (offset + size) = s.toList.drop (offset + size)

/-- Whether two streams are alike for those who read them from before `offset`: they have the same
bytes up to the first name of a directory there, and the others are equal in normalized form. -/
structure Stream.Alike (offset : Nat) (s s' : Stream) : Prop where
  start : s'.toList.take (offset + 46) = s.toList.take (offset + 46)
  normal : normalizeName s'.toList = normalizeName s.toList

namespace Stream

variable {offset size : Nat} {s s' : Stream}

theorem split (s : Stream) (offset size : Nat) : s.toList =
    s.toList.take offset ++ (s.toList.field offset size ++ s.toList.drop (offset + size)) := by
  rw [Bytes.field, ← List.drop_drop, List.take_append_drop, List.take_append_drop]

/-- **Streams whose directories are spelled otherwise** are alike. -/
theorem Respelled.alike (h : s.Respelled offset size s') (hle : offset ≤ s.size) :
    s.Alike offset s' := by
  obtain ⟨hbefore, hdirectory, hbehind⟩ := h
  have hlen : (s.toList.take offset).length = offset := by
    rw [List.length_take, length_toList, min_eq_left hle]
  have htake : ∀ bs : Bytes, (s.toList.take offset ++ bs).take (offset + 46) =
      (s.toList.take offset).take (offset + 46) ++ bs.take 46 := fun bs => by
    rw [List.take_append, hlen, Nat.add_sub_cancel_left]
  constructor
  · rw [s.split offset size, s'.split offset size, hbefore, hbehind, htake, htake,
      hdirectory.take_append]
  · rw [s.split offset size, s'.split offset size, hbefore, hbehind]
    simp only [normalizeName_append, hdirectory.normalizeName_eq]

theorem Respelled.field_behind (h : s.Respelled offset size s') (hpos : offset + size ≤ pos) :
    s'.toList.field pos len = s.toList.field pos len := by
  obtain ⟨k, rfl⟩ := Nat.exists_eq_add_of_le hpos
  rw [Bytes.field, Bytes.field, ← List.drop_drop, h.behind, List.drop_drop]

namespace Alike

variable {n : Nat}

theorem size_eq (h : s.Alike n s') : s'.size = s.size := by
  rw [← length_toList, length_eq_of_normalizeName h.normal, length_toList]

theorem field (h : s.Alike n s') (hend : pos + len ≤ n + 46) :
    s'.toList.field pos len = s.toList.field pos len :=
  Bytes.field_of_take h.start hend

theorem read (h : s.Alike n s') (hend : pos + len ≤ n + 46) :
    s'.read pos len = s.read pos len := by
  rw [read_eq, read_eq, h.size_eq, h.field hend]

theorem normalizeName_field (h : s.Alike n s') (pos len : Nat) :
    normalizeName (s'.toList.field pos len) = normalizeName (s.toList.field pos len) := by
  simp only [normalizeName, Bytes.field, List.map_take, List.map_drop]
  rw [← normalizeName, h.normal, normalizeName]

end Alike

end Stream

end PakIndex
