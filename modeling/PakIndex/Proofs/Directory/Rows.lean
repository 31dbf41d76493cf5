import PakIndex.Proofs.Directory.Stored

/-!
# Written rows

* `Listing.Row`: a record as it is written, with a name and nothing else behind its fixed part;
  `Row.stored`: as a record of a directory.
* **`Listing.parseFrom_rows`**: written rows are read back; `Listing.ofRows_spec`: which files they
  come to.
-/

namespace PakIndex.Listing

open Bytes

variable {buffer : Stream} {pos : Nat} {l : Listing} {row : DirectoryRecord × Bytes}

/-- A record and the name that it is written with. -/
abbrev Row := DirectoryRecord × Bytes

/-- The bytes of a row. -/
def Row.encode (row : Row) : Bytes := row.1.encode row.2

/-- Whether a row is read back as it is written. -/
structure Row.Writable (row : Row) : Prop where
  short : row.2.length < 2 ^ 16
  last : ∃ b, row.2.getLast? = some b ∧ isSeparator b = false
  method : Method.ofCode row.1.method.code = row.1.method
  version : row.1.versionNeeded &&& 0xFF ≤ maxVersionNeeded

theorem sum_names_le (rows : List Row) :
    (rows.map fun row => row.2.length).sum ≤ (rows.flatMap Row.encode).length := by
  rw [List.length_flatMap]
  refine List.sum_le_sum fun row _ => ?_
  rw [Row.encode, DirectoryRecord.length_encode]
  exact Nat.le_add_left _ _

/-- The listing with the file of one more row. -/
def pushRow (l : Listing) (row : Row) : Listing := l.push (row.1.named row.2) row.2 none

/-- The listing of rows. -/
def ofRows (rows : List Row) : Listing := rows.foldl pushRow {}

/-! ## Rows as records -/

theorem Row.Writable.not_marker (h : Row.Writable row) : marksFolder row.2 = false := by
  obtain ⟨b, hb, hsep⟩ := h.last
  rw [marksFolder, hb, Option.any_some, hsep]

theorem Row.Writable.named (h : Row.Writable row) : row.2 ≠ [] := by
  obtain ⟨b, hb, -⟩ := h.last
  rintro hnil
  rw [hnil] at hb
  cases hb

/-- A row as a record of a directory. -/
def Row.stored (row : Row) (h : row.Writable) : StoredRecord where
  fixed := row.1.named row.2
  name := row.2
  extra := []
  comment := []
  nameLength := UInt16.toNat_ofNat_of_lt' h.short
  extraLength := rfl
  commentLength := rfl
  method := h.method
  version := h.version
  named := h.named
  blocks := fun _ => ⟨[], rfl, nofun⟩

theorem Row.encode_stored (h : Row.Writable row) : (Row.stored row h).encode = Row.encode row := by
  show (row.1.named row.2).fixedBytes ++ (row.2 ++ ([] ++ [])) = _
  rw [DirectoryRecord.fixedBytes_named, List.append_nil, List.append_nil, Row.encode,
    DirectoryRecord.encode]

theorem pushStored_row (h : Row.Writable row) (l : Listing) :
    l.pushStored (Row.stored row h) = l.pushRow row := by
  have hblocks : ExtraBlock.ConsistsOf (Row.stored row h).extra [] := ⟨rfl, nofun⟩
  have hmtime : (Row.stored row h).mtime = none := StoredRecord.mtime_eq hblocks
  have hmarker : (Row.stored row h).isMarker = false := h.not_marker
  rw [pushStored, hmarker, hmtime]
  rfl

theorem exists_stored {rows : List Row} (h : ∀ row ∈ rows, row.Writable) : ∃ rs,
    StoredRecord.encodeAll rs = rows.flatMap Row.encode ∧
      ∀ l, rs.foldl pushStored l = rows.foldl pushRow l := by
  induction rows with
  | nil => exact ⟨[], rfl, fun _ => rfl⟩
  | cons row rows ih =>
    obtain ⟨hrow, hrows⟩ := List.forall_mem_cons.mp h
    obtain ⟨rs, hencode, hfold⟩ := ih hrows
    refine ⟨row.stored hrow :: rs, ?_, fun l => ?_⟩
    · rw [StoredRecord.encodeAll_cons, Row.encode_stored, hencode, List.flatMap_cons]
    · rw [List.foldl_cons, pushStored_row, hfold, List.foldl_cons]

/-- **Written rows are read back** one after the other. -/
theorem parseFrom_rows {rows : List Row} (h : ∀ row ∈ rows, row.Writable)
    (hd : buffer.toList.drop pos = rows.flatMap Row.encode) :
    parseFrom buffer pos l = .ok (rows.foldl pushRow l) := by
  obtain ⟨rs, hencode, hfold⟩ := exists_stored h
  rw [← hencode, ← List.append_nil (StoredRecord.encodeAll rs)] at hd
  obtain ⟨stop, hstop, hwalk⟩ := parseFrom_stored (l := l) hd
  rw [hwalk, parseFrom_end hstop, hfold]

theorem ofRows_spec (rows : List Row) (hsize : (rows.map fun row => row.2.length).sum < 2 ^ 32) :
    (ofRows rows).names.size = (rows.map fun row => row.2.length).sum ∧
    List.Forall₂ (fun row f => f.record = row.1.named row.2 ∧ f.mtime = none ∧
      (ofRows rows).names.Holds f.name ∧ (ofRows rows).names.get f.name = normalizeName row.2)
      rows (ofRows rows).files.toList := by
  suffices (ofRows rows).names.size = (rows.map fun row => row.2.length).sum ∧
      (ofRows rows).Shows (rows.map fun row => (row.1.named row.2, row.2, none)) from
    ⟨this.1, List.forall₂_map_left_iff.mp this.2⟩
  induction rows using List.reverseRecOn with
  | nil => exact ⟨rfl, .nil⟩
  | append_singleton rows row ih =>
    rw [List.map_append, List.sum_append, List.map_singleton, List.sum_singleton] at hsize ⊢
    obtain ⟨hnames, hfiles⟩ := ih (by omega)
    have hpush : ofRows (rows ++ [row]) = (ofRows rows).pushRow row := by
      rw [ofRows, List.foldl_append]
      rfl
    rw [hpush, List.map_append]
    refine ⟨?_, hfiles.push (hnames ▸ hsize) _ _⟩
    show ((ofRows rows).names.push row.2).2.size = _
    rw [NamePool.size_push, hnames]

end PakIndex.Listing
