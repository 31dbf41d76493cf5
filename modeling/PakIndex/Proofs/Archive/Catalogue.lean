import PakIndex.Proofs.Index.Written

/-!
# Archives of empty files

A catalogue has a directory and nothing in front of it: every file is empty and its name is a single
segment.

* `Catalogue.archive`: the bytes of a catalogue. Its trailer declares no entries, which readers do
  not mind.
* **`Catalogue.build_listed`**: a catalogue has an index with an entry for every name.
* `Catalogue.numberedNames`: up to 65536 names of four hexadecimal digits each.
-/

namespace PakIndex.Catalogue

open Bytes

variable {names : List Bytes} {name comment : Bytes} {h : Headers}

/-- The record of an empty file whose header would stand at the start of the archive. -/
def record : DirectoryRecord where
  versionMadeBy := 20
  versionNeeded := 20
  flags := 0
  method := .store
  time := 0
  date := 0
  descriptor := ⟨0, 0, 0⟩
  nameLength := 0
  extraLength := 0
  commentLength := 0
  diskNumberStart := 0
  internalAttributes := 0
  attributes := 0
  headerOffset := 0

/-- The rows of the directory. -/
def rows (names : List Bytes) : List Listing.Row := names.map fun name => (record, name)

/-- The directory: one record for each name. -/
def directory (names : List Bytes) : Bytes := (rows names).flatMap Listing.Row.encode

/-- The trailer of a catalogue with a comment. It declares no entries. -/
def trailer (names : List Bytes) (comment : Bytes) : Trailer :=
  .singleVolume 0 0 (.ofNat (directory names).length) (.ofNat comment.length)

/-- The bytes of a catalogue. -/
def archive (names : List Bytes) (comment : Bytes) : Bytes :=
  directory names ++ ((trailer names comment).encode ++ comment)

/-- Whether a name is a single segment in normalized form, short enough for a record. -/
structure Plain (name : Bytes) : Prop where
  ne : name ≠ []
  short : name.length < 2 ^ 16
  separators : ∀ b ∈ name, isSeparator b = false
  normal : normalizeName name = name

/-- Whether a catalogue can be read: its names are plain and differ, the comment holds headers and
does not look like another trailer, and the archive is not too large. -/
structure Valid (names : List Bytes) (comment : Bytes) (h : Headers) : Prop where
  plain : ∀ name ∈ names, Plain name
  nodup : names.Nodup
  headers : Headers.ofComment .none comment = .ok h
  commentShort : comment.length < 2 ^ 16
  unique : ∀ k, 8 < k → k ≤ comment.length →
    ((trailer names comment).encode ++ comment).field k 4 ≠ Trailer.signature
  small : (archive names comment).length ≤ maxArchiveSize

/-! ## The size of a catalogue -/

theorem length_directory (names : List Bytes) :
    (directory names).length = (names.map fun name => 46 + name.length).sum := by
  have hrow : ∀ name : Bytes, (Listing.Row.encode (record, name)).length = 46 + name.length :=
    fun name => by rw [Listing.Row.encode, DirectoryRecord.length_encode]
  simp only [directory, List.length_flatMap, rows, List.map_map, Function.comp_def, hrow]

theorem length_archive (names : List Bytes) (comment : Bytes) :
    (archive names comment).length = (directory names).length + 22 + comment.length := by
  rw [archive, List.length_append, List.length_append, Trailer.length_encode, Nat.add_assoc]

/-! ## The index of a catalogue -/

theorem Plain.writable (hn : Plain name) : Listing.Row.Writable (record, name) := by
  refine ⟨hn.short, ⟨name.getLast hn.ne, List.getLast?_eq_some_getLast hn.ne,
    hn.separators _ (List.getLast_mem hn.ne)⟩, rfl, ?_⟩
  show (20 : UInt16) &&& 0xFF ≤ 20
  decide

theorem written (hv : Valid names comment h) :
    Index.Written (.ofBytes (archive names comment)) [] (rows names) (trailer names comment)
      comment := by
  have hlen := length_archive names comment
  have hsmall := hv.small
  have hmax : maxArchiveSize = 2 ^ 31 := rfl
  refine ⟨by rw [Stream.toList_ofBytes]; rfl, by rw [Stream.size_ofBytes]; exact hsmall, ?_,
    ⟨show diskNumber 0 = 0 by decide, rfl, rfl⟩, rfl, ?_,
    UInt16.toNat_ofNat_of_lt' hv.commentShort, hv.unique⟩
  · intro row hrow
    obtain ⟨name, hname, rfl⟩ := List.mem_map.mp hrow
    exact (hv.plain name hname).writable
  · exact UInt32.toNat_ofNat_of_lt' (lt_of_le_of_lt (b := 2 ^ 31) (by omega) (by decide))

theorem accept_record {l : Locator} {s : Stream} {pool : NamePool} {f : ListedFile}
    {init : Thoroughness} (hinit : init ≠ .validate) (codec : Codec)
    (hrecord : f.record = record.named name) :
    Index.accept ⟨init, l⟩ codec s pool f = .ok { Entry.ofListed f with dataOffset := none } := by
  have hempty : (Entry.ofListed f).compressedSize = 0 := by
    rw [Entry.ofListed, hrecord]
    rfl
  refine Index.accept_of_locate hinit ?_ (fun _ hne => absurd hempty hne) fun _ => rfl
  rw [Locator.check_eq_ok_iff, Entry.ofListed, hrecord]
  exact ⟨Nat.zero_le _, fun _ => rfl⟩

/-- **The index of a catalogue** has an entry for every name, and describing them takes as much room
as the directory has. -/
theorem build_listed (hv : Valid names comment h) {options : Options}
    (hinit : options.init ≠ .validate) (codec : Codec) :
    ∃ i, Index.build options codec (.ofBytes (archive names comment)) = .ok i ∧
      i.headers = h ∧ i.directoryOffset = 0 ∧ i.flags.readOnly = options.readOnly ∧
      i.tree.entries.length = names.length ∧ i.recordsSize = (directory names).length := by
  have hdisk : Encryption.ofDisk (trailer names comment).disk = .none :=
    show Encryption.ofDisk 0 = .none by decide
  have hsurvey := Index.survey_written (written hv) (by rw [hdisk]; exact hv.headers)
  obtain ⟨hlisted, -, -, hinside, hsmall⟩ := Index.surveyed_of_ok hsurvey
  have hpool : (Listing.ofRows (rows names)).names.size < 2 ^ 32 :=
    lt_of_le_of_lt hlisted.names (UInt32.toNat_lt _)
  have hfiles := (Listing.ofRows_spec (rows names) ?_).2
  swap
  · have hmax : maxArchiveSize = 2 ^ 31 := rfl
    have hle : _ ≤ (directory names).length := Listing.sum_names_le (rows names)
    have hlen := length_archive names comment
    have hsmall := hv.small
    omega
  generalize Listing.ofRows (rows names) = listing at hsurvey hlisted hpool hfiles
  have haccepted : ∀ name ∈ names, ∀ f : ListedFile, f.record = record.named name ∧ f.mtime = none ∧
      listing.names.Holds f.name ∧ listing.names.get f.name = normalizeName name →
      ∃ e, Index.accept ⟨options.init, h.encryption, (trailer names comment).directoryOffset⟩ codec
        (.ofBytes (archive names comment)) listing.names f = .ok e ∧
        name = listing.names.get e.name := by
    rintro name hname f ⟨hrecord, -, -, hget⟩
    refine ⟨_, accept_record hinit codec hrecord, ?_⟩
    exact (hget.trans (hv.plain name hname).normal).symm
  obtain ⟨es, hes, hnames⟩ :=
    Index.exists_accepted (List.forall₂_map_left_iff.mp hfiles) haccepted
  have hnames : names = es.map fun e => listing.names.get e.name := by
    rw [← List.forall₂_eq_eq_eq, List.forall₂_map_right_iff]
    exact hnames
  obtain ⟨hsound, -⟩ := Index.accepted_sound hlisted.files hes
  obtain ⟨hput, hwf⟩ := Index.wellFormed_insertAll hpool hsound
  -- The names differ and are single segments, so no entry takes the place of another one.
  have hpaths : (es.map fun e => segments ((Tree.ofNames listing.names).nameOf e)) =
      names.map fun name => [name] := by
    rw [hnames, List.map_map]
    refine List.map_congr_left fun e he => ?_
    have hplain := hv.plain (listing.names.get e.name) (by
      rw [hnames]
      exact List.mem_map_of_mem he)
    exact segments_of_plain hplain.separators hplain.ne
  have hperm := Tree.insertAll_perm (Tree.wellFormed_ofNames hpool) rfl hput (by
    rw [hpaths]
    exact hv.nodup.map List.singleton_injective)
  have hlist := Tree.toList_refreshSlots hwf (trailer names comment).directoryOffset
  refine ⟨_, Index.build_eq_ok_iff.mpr ⟨_, _, _, es, hsurvey, hes, rfl⟩, rfl, rfl, rfl, ?_, ?_⟩
  · rw [Tree.entries, List.length_map, hlist, List.length_map, hperm.length_eq, List.length_map,
      hnames, List.length_map]
  · have hkept : ∀ e, Tree.nameOf (((Tree.ofNames listing.names).insertAll es).refreshSlots
        (trailer names comment).directoryOffset) e = listing.names.get e.name := fun e => by
      rw [Tree.nameOf, Tree.names_refreshSlots hwf, Tree.names_insertAll]
      rfl
    rw [Index.recordsSize, hlist, List.map_map, length_directory]
    simp only [Function.comp_def, hkept]
    rw [(hperm.map fun x : Path × Entry => 46 + (listing.names.get x.2.name).length).sum_eq,
      List.map_map, hnames, List.map_map]
    rfl

/-! ## Numbered names -/

/-- A hexadecimal digit. -/
def hexDigit (d : Nat) : UInt8 := if d < 10 then .ofNat (0x30 + d) else .ofNat (0x57 + d)

/-- A number below 65536 in four hexadecimal digits. -/
def numbered (n : Nat) : Bytes :=
  [hexDigit (n / 4096 % 16), hexDigit (n / 256 % 16), hexDigit (n / 16 % 16), hexDigit (n % 16)]

theorem hexDigit_inj : ∀ a < 16, ∀ b < 16, hexDigit a = hexDigit b → a = b := by decide

theorem hexDigit_plain : ∀ d < 16, isSeparator (hexDigit d) = false ∧
    normalizeByte (hexDigit d) = hexDigit d := by decide

theorem numbered_inj {m n : Nat} (hm : m < 65536) (hn : n < 65536)
    (heq : numbered m = numbered n) : m = n := by
  simp only [numbered, List.cons.injEq, and_true] at heq
  obtain ⟨h₃, h₂, h₁, h₀⟩ := heq
  have hdigit : ∀ a b, hexDigit (a % 16) = hexDigit (b % 16) → a % 16 = b % 16 := fun a b =>
    hexDigit_inj _ (Nat.mod_lt _ (by decide)) _ (Nat.mod_lt _ (by decide))
  have := hdigit _ _ h₃
  have := hdigit _ _ h₂
  have := hdigit _ _ h₁
  have := hdigit _ _ h₀
  omega

theorem plain_numbered (n : Nat) : Plain (numbered n) := by
  have hdigit : ∀ b ∈ numbered n, isSeparator b = false ∧ normalizeByte b = b := by
    intro b hb
    simp only [numbered, List.mem_cons, List.not_mem_nil, or_false] at hb
    rcases hb with rfl | rfl | rfl | rfl <;> exact hexDigit_plain _ (Nat.mod_lt _ (by decide))
  refine ⟨List.cons_ne_nil _ _, show 4 < 2 ^ 16 by decide, fun b hb => (hdigit b hb).1, ?_⟩
  exact (List.map_congr_left fun b hb => (hdigit b hb).2).trans (List.map_id _)

/-- The first `count` numbered names. -/
def numberedNames (count : Nat) : List Bytes := (List.range count).map numbered

theorem plain_of_mem_numberedNames {count : Nat} (hname : name ∈ numberedNames count) :
    Plain name := by
  obtain ⟨n, -, rfl⟩ := List.mem_map.mp hname
  exact plain_numbered n

theorem nodup_numberedNames {count : Nat} (hc : count ≤ 65536) : (numberedNames count).Nodup := by
  refine List.Nodup.map_on ?_ List.nodup_range
  intro m hm n hn heq
  rw [List.mem_range] at hm hn
  exact numbered_inj (by omega) (by omega) heq

theorem length_numberedNames (count : Nat) : (numberedNames count).length = count := by
  rw [numberedNames, List.length_map, List.length_range]

theorem length_directory_numberedNames (count : Nat) :
    (directory (numberedNames count)).length = count * 50 := by
  have hname : ∀ name ∈ numberedNames count, 46 + name.length = 50 := by
    intro name hname
    obtain ⟨n, -, rfl⟩ := List.mem_map.mp hname
    rfl
  rw [length_directory, List.map_congr_left hname, List.map_const', List.sum_replicate,
    length_numberedNames, smul_eq_mul]

theorem valid_numberedNames {count : Nat} (hcount : count ≤ 65536)
    (hh : Headers.ofComment .none comment = .ok h) (hshort : comment.length < 2 ^ 16)
    (hunique : ∀ k < comment.length + 1, 8 < k →
      Bytes.field ((Trailer.singleVolume 0 0 (.ofNat (count * 50))
        (.ofNat comment.length)).encode ++ comment) k 4 ≠ Trailer.signature) :
    Valid (numberedNames count) comment h := by
  have hdirectory := length_directory_numberedNames count
  refine ⟨fun name => plain_of_mem_numberedNames, nodup_numberedNames hcount, hh, hshort, ?_, ?_⟩
  · intro k hk hk'
    rw [trailer, hdirectory]
    exact hunique k (by omega) hk
  · have hmax : maxArchiveSize = 2 ^ 31 := rfl
    rw [length_archive, hdirectory]
    omega

end PakIndex.Catalogue
