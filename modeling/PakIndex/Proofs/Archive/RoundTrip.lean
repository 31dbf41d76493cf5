import PakIndex.Proofs.Archive.Packed
import PakIndex.Proofs.Index.Use

/-!
# Packed archives are read back

* `Packed.bytes_at`, `Packed.locate_packed`: where the reader finds a file.
* `Packed.accept_packed`: the entry that a file comes to.
* `Packed.lastAt`: the last file at a path.
* **`Packed.build_archive`**: the index of a packed archive has the last file under every path, and
  reads its payload.
-/

namespace PakIndex.Packed

open Bytes

variable {files : List PackedFile} {f : PackedFile} {comment : Bytes} {pos : Nat}

/-- The locator of a packed archive. -/
def locator (files : List PackedFile) : Locator := ⟨.none, .ofNat (payloads files).length⟩

/-! ## Where a file stands -/

theorem bytes_at (h : (pos, f) ∈ placed 0 files) (comment : Bytes) :
    (∃ rest, (archive files comment).drop pos = f.bytes ++ rest) ∧
      pos + f.bytes.length ≤ (payloads files).length := by
  obtain ⟨before, after, hbytes, hpos⟩ := placed_spec h
  rw [Nat.zero_add] at hpos
  refine ⟨⟨after ++ (directory files ++ ((trailer files comment).encode ++ comment)), ?_⟩, ?_⟩
  · rw [archive, hbytes, hpos]
    simp only [List.append_assoc]
    exact List.drop_left' rfl
  · rw [hbytes, hpos, List.length_append, List.length_append]
    omega

theorem position_lt (hsize : (archive files comment).length ≤ maxArchiveSize)
    (h : (pos, f) ∈ placed 0 files) :
    (UInt32.ofNat pos).toNat = pos ∧ (UInt32.ofNat f.payload.length).toNat = f.payload.length ∧
      (UInt32.ofNat (f.payloadOffset pos)).toNat = f.payloadOffset pos ∧
      (UInt32.ofNat (payloads files).length).toNat = (payloads files).length := by
  have hend := (bytes_at h comment).2
  have hlen := length_archive files comment
  have hmax : maxArchiveSize = 2 ^ 31 := rfl
  rw [PackedFile.length_bytes] at hend
  have hoffset : f.payloadOffset pos = pos + 30 + f.name.length + f.extra.length := rfl
  refine ⟨UInt32.toNat_ofNat_of_lt' ?_, UInt32.toNat_ofNat_of_lt' ?_, UInt32.toNat_ofNat_of_lt' ?_,
    UInt32.toNat_ofNat_of_lt' ?_⟩ <;> exact lt_of_le_of_lt (b := 2 ^ 31) (by omega) (by decide)

/-- **The payload of a file is located** behind its local header. -/
theorem locate_packed (hfiles : ∀ f ∈ files, f.Valid)
    (hsize : (archive files comment).length ≤ maxArchiveSize) (h : (pos, f) ∈ placed 0 files)
    {e : Entry} (hoffset : e.headerOffset = .ofNat pos) (hmethod : e.method = f.method)
    (hdescriptor : e.descriptor = f.descriptor) :
    (locator files).locate (.ofBytes (archive files comment)) e (normalizeName f.name) =
      .ok (.ofNat (f.payloadOffset pos)) := by
  have hv := hfiles f (mem_of_mem_placed h)
  obtain ⟨hpos, hpayload, -, hpayloads⟩ := position_lt hsize h
  obtain ⟨⟨rest, hrest⟩, hend⟩ := bytes_at h comment
  rw [PackedFile.length_bytes] at hend
  have hpos' : e.headerOffset.toNat = pos := by rw [hoffset, hpos]
  have hcompressed : e.compressedSize = f.payload.length := by
    rw [Entry.compressedSize, hdescriptor]
    exact hpayload
  have hlimit : (locator files).directoryOffset.toNat = (payloads files).length := hpayloads
  have hs : (Stream.ofBytes (archive files comment)).toList.drop e.headerOffset.toNat =
      f.localHeader.fixedPart f.name.length f.extra.length ++ f.name ++
        (f.extra ++ (f.payload ++ rest)) := by
    rw [Stream.toList_ofBytes, hpos', hrest, PackedFile.bytes, LocalHeader.encode]
    simp only [List.append_assoc]
  have hcode : Method.ofCode e.method.code = e.method := by
    rw [hmethod, PackedFile.method, Method.code_ofCode]
  have hlocate := Locator.locate_written (l := locator files) rfl hs hmethod.symm hcode
    hdescriptor.symm (normalizeName_idem f.name).symm hv.short hv.extraShort (by omega)
    (fun hne => by omega)
  rw [hlocate, hpos']
  rfl

theorem payload_at (hsize : (archive files comment).length ≤ maxArchiveSize)
    (h : (pos, f) ∈ placed 0 files) :
    (Stream.ofBytes (archive files comment)).toList.field
      (UInt32.ofNat (f.payloadOffset pos)).toNat f.descriptor.compressedSize.toNat = f.payload := by
  obtain ⟨-, hpayload, hoffset, -⟩ := position_lt hsize h
  obtain ⟨⟨rest, hrest⟩, -⟩ := bytes_at h comment
  have hsum : f.payloadOffset pos = pos + (f.localHeader.encode f.name f.extra).length := by
    rw [LocalHeader.length_encode, PackedFile.payloadOffset]
    omega
  rw [hoffset, PackedFile.descriptor, hpayload, Stream.toList_ofBytes, Bytes.field, hsum,
    ← List.drop_drop, hrest, PackedFile.bytes, List.append_assoc, List.drop_left' rfl]
  exact List.take_left' rfl

/-! ## The entry of a file -/

/-- Where the payload of a file is known to be once it has been accepted. -/
def locatedAt (init : Thoroughness) (f : PackedFile) (pos : Nat) : Option UInt32 :=
  if init.atLeastFull = true ∧ f.payload ≠ [] then some (.ofNat (f.payloadOffset pos)) else none

/-- The entry of a file whose local header stands at `pos`, where its name is kept at `name`. -/
def entry (init : Thoroughness) (f : PackedFile) (pos : Nat) (name : NameRef) : Entry where
  name := name
  method := f.method
  descriptor := f.descriptor
  headerOffset := .ofNat pos
  dataOffset := locatedAt init f pos
  slotEnd := 0
  versionNeeded := f.versionNeeded
  flags := f.flags
  time := f.time
  date := f.date
  attributes := f.attributes
  mtime := none

theorem accept_packed (hfiles : ∀ f ∈ files, f.Valid)
    (hsize : (archive files comment).length ≤ maxArchiveSize) (h : (pos, f) ∈ placed 0 files)
    {init : Thoroughness} (hinit : init ≠ .validate) (codec : Codec) {names : NamePool}
    {x : ListedFile} (hrecord : x.record = (f.record pos).named f.name) (hmtime : x.mtime = none)
    (hname : names.get x.name = normalizeName f.name) :
    Index.accept ⟨init, locator files⟩ codec (.ofBytes (archive files comment)) names x =
      .ok (entry init f pos x.name) := by
  have hv := hfiles f (mem_of_mem_placed h)
  obtain ⟨hpos, hpayload, -, hpayloads⟩ := position_lt hsize h
  have hend := (bytes_at h comment).2
  have hlisted : Entry.ofListed x = { entry init f pos x.name with dataOffset := none } := by
    rw [Entry.ofListed, hrecord, hmtime]
    rfl
  have hsizes : (Entry.ofListed x).compressedSize ≠ 0 ↔ f.payload ≠ [] := by
    have hc : (Entry.ofListed x).compressedSize = f.payload.length := by
      rw [hlisted]
      exact hpayload
    rw [hc, Ne, List.length_eq_zero_iff]
  have heager : Index.Policy.isEager ⟨init, locator files⟩ = init.atLeastFull := Bool.false_or _
  have hlisted' : entry init f pos x.name = { Entry.ofListed x with
      dataOffset := locatedAt init f pos } := by
    rw [hlisted]
    rfl
  rw [hlisted']
  refine Index.accept_of_locate hinit ?_ ?_ ?_
  · rw [Locator.check_eq_ok_iff, hlisted]
    refine ⟨?_, fun hstored => ?_⟩
    · show (UInt32.ofNat pos).toNat ≤ (UInt32.ofNat (payloads files).length).toNat
      omega
    · rw [← UInt32.toNat_inj]
      exact hpayload.trans (hv.stored hstored).symm
  · rw [heager, hsizes, hname]
    intro hfull hne
    refine ⟨_, if_pos ⟨hfull, hne⟩, ?_⟩
    exact locate_packed hfiles hsize h (by rw [hlisted]; rfl) (by rw [hlisted]; rfl)
      (by rw [hlisted]; rfl)
  · rw [heager, hsizes]
    exact fun hlazy => if_neg hlazy

/-- Whether an entry is that of a file whose local header stands at `pos`, before its slot is set.
-/
def IsEntryOf (init : Thoroughness) (names : NamePool) (x : Nat × PackedFile) (e : Entry) : Prop :=
  names.get e.name = normalizeName x.2.name ∧ e = entry init x.2 x.1 e.name

theorem accept_all (hfiles : ∀ f ∈ files, f.Valid)
    (hsize : (archive files comment).length ≤ maxArchiveSize) {init : Thoroughness}
    (hinit : init ≠ .validate) (codec : Codec) : ∃ es,
      List.Forall₂ (fun f e => Index.accept ⟨init, locator files⟩ codec
        (.ofBytes (archive files comment)) (Listing.ofRows (rows files)).names f = .ok e)
        (Listing.ofRows (rows files)).files.toList es ∧
      List.Forall₂ (IsEntryOf init (Listing.ofRows (rows files)).names) (placed 0 files) es := by
  have hnames : ((rows files).map fun row => row.2.length).sum < 2 ^ 32 := by
    have hmax : maxArchiveSize = 2 ^ 31 := rfl
    have hlen := length_archive files comment
    have hle : _ ≤ (directory files).length := Listing.sum_names_le (rows files)
    omega
  have hlisted := List.forall₂_map_left_iff.mp (Listing.ofRows_spec (rows files) hnames).2
  refine Index.exists_accepted hlisted ?_
  rintro ⟨pos, f⟩ hx x ⟨hrecord, hmtime, -, hname⟩
  exact ⟨_, accept_packed hfiles hsize hx hinit codec hrecord hmtime hname, hname, rfl⟩

/-! ## The index of an archive -/

/-- The last file at a path, with the position of its local header. -/
def lastAt (files : List PackedFile) (q : Path) : Option (Nat × PackedFile) :=
  ((placed 0 files).filter fun x => q == x.2.path).getLast?

theorem lastAt_spec {q : Path} {x : Nat × PackedFile} (h : lastAt files q = some x) :
    x ∈ placed 0 files ∧ q = x.2.path := by
  obtain ⟨hx, hq⟩ := List.mem_filter.mp (List.mem_of_getLast? h)
  exact ⟨hx, beq_iff_eq.mp hq⟩

theorem lastAt_eq_none_iff {q : Path} : lastAt files q = none ↔ q ∉ files.map PackedFile.path := by
  have hpaths : files.map PackedFile.path = (placed 0 files).map fun x => x.2.path := by
    conv_lhs => rw [← map_snd_placed 0 files, List.map_map]
    rfl
  rw [lastAt, List.getLast?_eq_none_iff, List.filter_eq_nil_iff, hpaths, List.mem_map]
  constructor
  · rintro h ⟨x, hx, rfl⟩
    exact h x hx (beq_self_eq_true _)
  · intro h x hx hq
    exact h ⟨x, hx, (beq_iff_eq.mp hq).symm⟩

theorem cases_of_rel {α β : Type} {R : α → β → Prop} {a : Option α} {b : Option β}
    (h : Option.Rel R a b) : a = none ∧ b = none ∨ ∃ x y, a = some x ∧ b = some y ∧ R x y := by
  cases h with
  | none => exact .inl ⟨rfl, rfl⟩
  | some h => exact .inr ⟨_, _, rfl, rfl, h⟩

theorem rel_getLast?_filter {α β : Type} {R : α → β → Prop} {p : α → Bool} {q : β → Bool}
    {as : List α} {bs : List β} (h : List.Forall₂ R as bs) (hpq : ∀ a b, R a b → p a = q b) :
    Option.Rel R (as.filter p).getLast? (bs.filter q).getLast? := by
  induction h with
  | nil => exact .none
  | @cons a b as bs hab _ ih =>
    rw [List.filter_cons, List.filter_cons, ← hpq a b hab]
    by_cases ha : p a = true
    · rw [if_pos ha, if_pos ha, List.getLast?_cons, List.getLast?_cons]
      rcases cases_of_rel ih with ⟨hx, hy⟩ | ⟨x, y, hx, hy, hxy⟩ <;> rw [hx, hy]
      · exact .some hab
      · exact .some hxy
    · rw [if_neg ha, if_neg ha]
      exact ih

theorem rel_binding {init : Thoroughness} {names : NamePool} {es : List Entry}
    (hnames : names.size < 2 ^ 32)
    (hes : List.Forall₂ (IsEntryOf init names) (placed 0 files) es)
    (hput : ∀ e ∈ es, Tree.Puttable (Tree.ofNames names).names e) (q : Path) :
    Option.Rel (IsEntryOf init names) (lastAt files q)
      (((Tree.ofNames names).insertAll es).binding q) := by
  have hempty : (Tree.ofNames names).binding q = none := rfl
  rw [Tree.binding_insertAll (Tree.wellFormed_ofNames hnames) hput, hempty, Option.or_none]
  refine rel_getLast?_filter hes fun x e he => ?_
  rw [PackedFile.path, ← he.1]
  rfl

theorem size_eq_of_binding {t : Tree} (h : t.WellFormed) {paths : List Path}
    (hpaths : ∀ q, t.binding q = none ↔ q ∉ paths) : t.size = paths.dedup.length := by
  have hperm : (t.toList.map Prod.fst).Perm paths.dedup := by
    refine (List.perm_ext_iff_of_nodup h.nodup_paths (List.nodup_dedup paths)).mpr fun q => ?_
    rw [List.mem_dedup, ← not_iff_not, ← hpaths, Tree.binding, lookup_eq_none_iff_keys]
  rw [h.size_eq, ← hperm.length_eq, List.length_map]

theorem rel_binding_refreshSlots {init : Thoroughness} {names : NamePool} {es : List Entry}
    (hnames : names.size < 2 ^ 32)
    (hes : List.Forall₂ (IsEntryOf init names) (placed 0 files) es)
    (hput : ∀ e ∈ es, Tree.Puttable (Tree.ofNames names).names e) (stop : UInt32) (q : Path) :
    let t := ((Tree.ofNames names).insertAll es).refreshSlots stop
    Option.Rel (fun x e => t.nameOf e = normalizeName x.2.name ∧
      e = { entry init x.2 x.1 e.name with slotEnd := e.slotEnd })
      (lastAt files q) (t.binding q) := by
  intro t
  have hwf := (Tree.wellFormed_ofNames hnames).insertAll hput
  have hkept : t.names = names :=
    (Tree.names_refreshSlots hwf stop).trans (Tree.names_insertAll _ es)
  rw [Tree.binding_refreshSlots hwf]
  rcases cases_of_rel (rel_binding hnames hes hput q) with ⟨hx, hy⟩ | ⟨x, e, hx, hy, hname, he⟩ <;>
    rw [hx, hy]
  · exact .none
  · refine .some ⟨?_, ?_⟩
    · rw [Tree.nameOf, hkept]
      exact hname
    · rw [he]
      rfl

theorem exists_build (hfiles : ∀ f ∈ files, f.Valid) (hcomment : comment.length < 8)
    (hsize : (archive files comment).length ≤ maxArchiveSize) {options : Options}
    (hinit : options.init ≠ .validate) (codec : Codec) :
    ∃ i, Index.build options codec (.ofBytes (archive files comment)) = .ok i ∧
      i.locator = locator files ∧ i.directorySize = .ofNat (directory files).length ∧
      i.headers = { comment } ∧ ∀ q, Option.Rel (fun x e =>
        i.tree.nameOf e = normalizeName x.2.name ∧
        e = { entry options.init x.2 x.1 e.name with slotEnd := e.slotEnd })
        (lastAt files q) (i.tree.binding q) := by
  obtain ⟨es, hacc, hes⟩ := accept_all hfiles hsize hinit codec
  have hsurvey := survey_archive hfiles hcomment hsize
  have hlisted := (Index.surveyed_of_ok hsurvey).listed
  have hnames : (Listing.ofRows (rows files)).names.size < 2 ^ 32 :=
    lt_of_le_of_lt hlisted.names (UInt32.toNat_lt _)
  obtain ⟨hsound, -⟩ := Index.accepted_sound hlisted.files hacc
  obtain ⟨hput, -⟩ := Index.wellFormed_insertAll hnames hsound
  refine ⟨_, Index.build_eq_ok_iff.mpr ⟨_, _, _, es, hsurvey, hacc, rfl⟩, rfl, rfl, rfl,
    fun q => ?_⟩
  exact rel_binding_refreshSlots hnames hes hput _ q

theorem build_of_map {α : Type} (hfiles : ∀ f ∈ files, f.Valid) (hcomment : comment.length < 8)
    (hsize : (archive files comment).length ≤ maxArchiveSize) (options : Options) (codec : Codec)
    (key : NamePool → Path × Entry → α) {keys : List α}
    (hslot : ∀ names p e slot, key names (p, { e with slotEnd := slot }) = key names (p, e))
    (hrun : ((Index.acceptAll ⟨options.init, locator files⟩ codec (.ofBytes (archive files comment))
      (Listing.ofRows (rows files)).files.toList (.ofNames (Listing.ofRows (rows files)).names)).map
        fun t => t.toList.map (key t.names)).toOption = some keys) :
    ∃ i, Index.build options codec (.ofBytes (archive files comment)) = .ok i ∧
      i.locator = locator files ∧ i.tree.toList.map (key i.tree.names) = keys := by
  obtain ⟨i, hi, hheaders, hoffset, hkeys⟩ :=
    Index.build_of_map options codec key (survey_archive hfiles hcomment hsize) hslot hrun
  refine ⟨i, hi, ?_, hkeys⟩
  rw [Index.locator, hheaders, hoffset]
  rfl

/-- **The index of an archive has the last file under every path, and reads its payload.** Files of
any number are packed one after the other, with a comment that cannot hold an extended header, into
an archive of a supported size. An index is built at every level of thoroughness that does not
decode payloads. It has the directory and the comment of the archive and as many entries as there
are paths. A path of any spelling leads to the entry of the last file that was packed there. The
slot of the entry follows from the headers of all entries. Its payload is located behind the local
header, name and extra field, and its stored bytes are the payload that was packed. -/
theorem build_archive {files : List PackedFile} {comment : Bytes} (hfiles : ∀ f ∈ files, f.Valid)
    (hcomment : comment.length < 8) (hsize : (archive files comment).length ≤ maxArchiveSize)
    {options : Options} (hinit : options.init ≠ .validate) (codec : Codec) :
    let s := Stream.ofBytes (archive files comment)
    ∃ i, Index.build options codec s = .ok i ∧
      i.directoryOffset.toNat = (payloads files).length ∧
      i.directorySize.toNat = (directory files).length ∧ i.headers = { comment } ∧
      i.size = (files.map PackedFile.path).dedup.length ∧
      ∀ path : String, match lastAt files (querySegments path) with
        | none => i.find? path = none
        | some (pos, f) => ∃ e, i.find? path = some e ∧
            i.tree.nameOf e = normalizeName f.name ∧
            e = { entry options.init f pos e.name with slotEnd := e.slotEnd } ∧
            e.slotEnd = Tree.slotOf i.directoryOffset i.tree.toList (querySegments path) ∧
            (i.resolve s path).1 =
              .ok { e with dataOffset := some (.ofNat (f.payloadOffset pos)) } ∧
            (i.readStored s path).1 = .ok f.payload ∧
            (i.readContent codec s path).1 = e.decode codec f.payload := by
  intro s
  obtain ⟨i, hi, hlocator, hdirectory, hheaders, hrel⟩ :=
    exists_build hfiles hcomment hsize hinit codec
  have hcoherent := Index.build_coherent hi
  have hmax : maxArchiveSize = 2 ^ 31 := rfl
  have hlen := length_archive files comment
  have hfind : ∀ path, i.find? path = i.tree.binding (querySegments path) := fun path =>
    hcoherent.tree.get?_eq_binding _
  refine ⟨i, hi, ?_, ?_, hheaders, ?_, fun path => ?_⟩
  · rw [show i.directoryOffset = _ from congrArg Locator.directoryOffset hlocator]
    exact UInt32.toNat_ofNat_of_lt' (lt_of_le_of_lt (b := 2 ^ 31) (by omega) (by decide))
  · rw [hdirectory]
    exact UInt32.toNat_ofNat_of_lt' (lt_of_le_of_lt (b := 2 ^ 31) (by omega) (by decide))
  · refine size_eq_of_binding hcoherent.tree fun q => ?_
    rw [← lastAt_eq_none_iff]
    rcases cases_of_rel (hrel q) with ⟨hx, hy⟩ | ⟨x, e, hx, hy, -⟩ <;> rw [hx, hy]
    · exact iff_of_true rfl rfl
    · exact iff_of_false nofun nofun
  · rw [hfind]
    rcases cases_of_rel (hrel (querySegments path)) with ⟨hx, hy⟩ | ⟨⟨pos, f⟩, e, hx, hy, hname, he⟩
    · rw [hx]
      exact hy
    rw [hx]
    obtain ⟨hmem, -⟩ := lastAt_spec hx
    have hlocate : i.locator.locate s e (i.tree.nameOf e) = .ok (.ofNat (f.payloadOffset pos)) := by
      rw [hlocator, hname]
      exact locate_packed hfiles hsize hmem (by rw [he]; rfl) (by rw [he]; rfl) (by rw [he]; rfl)
    have hpayload : s.toList.field (UInt32.ofNat (f.payloadOffset pos)).toNat e.compressedSize =
        f.payload := by
      rw [he]
      exact payload_at hsize hmem
    obtain ⟨hresolve, hstored, hcontent⟩ :=
      Index.read_of_locate hcoherent ((hfind path).trans hy) hlocate codec
    rw [hpayload] at hstored hcontent
    refine ⟨e, hy, hname, he, ?_, hresolve, hstored, hcontent⟩
    exact hcoherent.slots _ _ (hcoherent.tree.binding_eq_some_iff.mp hy)

/-- A file that is stored as it is, with nothing else to say about it. -/
def plain (name payload : Bytes) : PackedFile where
  name := name
  extra := []
  payload := payload
  methodCode := 0
  crc32 := 0
  uncompressedSize := .ofNat payload.length
  versionMadeBy := 0
  versionNeeded := 0
  flags := 0
  time := 0
  date := 0
  diskNumberStart := 0
  internalAttributes := 0
  attributes := 0

theorem valid_plain {name payload : Bytes}
    (hlast : ∃ b, name.getLast? = some b ∧ isSeparator b = false) (hshort : name.length < 2 ^ 16)
    (hpayload : payload.length < 2 ^ 32) : (plain name payload).Valid :=
  ⟨hlast, hshort, Nat.two_pow_pos 16, by show (0 : UInt16) &&& 0xFF ≤ _; decide,
    fun _ => UInt32.toNat_ofNat_of_lt' hpayload⟩

/-- Two files are packed under two spellings of one path, and the second one is read. -/
theorem build_archive_twice :
    let files := [plain [0x61, 0x2F, 0x62] [1, 2, 3], plain [0x41, 0x5C, 0x42] [4]]
    let s := Stream.ofBytes (archive files [0x21])
    ∃ i, Index.build { init := .full } (fun _ stored _ => .ok stored) s = .ok i ∧ i.size = 1 ∧
      (i.readStored s "a//B").1 = .ok [4] := by
  intro files s
  have hfiles : ∀ f ∈ files, f.Valid := by
    simp only [files, List.forall_mem_cons]
    exact ⟨valid_plain ⟨0x62, rfl, by decide⟩ (by decide) (by decide),
      valid_plain ⟨0x42, rfl, by decide⟩ (by decide) (by decide), List.forall_mem_nil _⟩
  have hsmall : (archive files [0x21]).length ≤ maxArchiveSize := by decide +kernel
  have hinit : ({ init := .full } : Options).init ≠ .validate := by decide
  obtain ⟨i, hi, -, -, -, hsize, hpaths⟩ :=
    build_archive hfiles (by decide) hsmall hinit fun _ stored _ => .ok stored
  have hlast : lastAt files (querySegments "a//B") = some (36, plain [0x41, 0x5C, 0x42] [4]) := by
    decide +kernel
  have hread := hpaths "a//B"
  rw [hlast] at hread
  obtain ⟨e, -, -, -, -, -, hread, -⟩ := hread
  exact ⟨i, hi, hsize.trans (by decide +kernel), hread⟩

end PakIndex.Packed
