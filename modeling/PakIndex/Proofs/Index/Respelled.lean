import PakIndex.Proofs.Archive.RoundTrip
import PakIndex.Proofs.Directory.Respelled
import PakIndex.Proofs.Index.Reach
import PakIndex.Proofs.Name.Utf8

/-!
# Archives with names spelled otherwise

* `Locator.locate_alike`, `Entry.stored_alike`: what is read of an archive from before its directory
  does not depend on how the names in the directory are spelled.
* `Index.survey_respelled`, `Index.accept_alike`: neither does what is built.
* `Index.Coherent.resolve_alike`, `Index.Coherent.readContent_alike`, `Index.Coherent.useAll_alike`:
  nor what an index is used for, whether or not it succeeds.
* **`Index.build_respelled`**: archives whose names differ only in case and separators have one
  index, which answers alike over both, and for paths that differ only so.
-/

namespace PakIndex

variable {n : Nat} {s s' : Stream}

/-! ## Local headers -/

theorem LocalHeader.parse_congr {bs bs' : Bytes} (hlen : bs'.length = bs.length)
    (h : bs'.take 30 = bs.take 30) : LocalHeader.parse bs' = LocalHeader.parse bs := by
  have h16 : ∀ k, k + 2 ≤ 30 → bs'.u16At k = bs.u16At k := fun k hk => by
    rw [Bytes.u16At, Bytes.field_of_take h hk, Bytes.u16At]
  have h32 : ∀ k, k + 4 ≤ 30 → bs'.u32At k = bs.u32At k := fun k hk => by
    rw [Bytes.u32At, Bytes.field_of_take h hk, Bytes.u32At]
  have hdescriptor : Descriptor.readAt bs' 14 = Descriptor.readAt bs 14 := by
    rw [Descriptor.readAt, h32 14 (by decide), h32 (14 + 4) (by decide), h32 (14 + 8) (by decide),
      Descriptor.readAt]
  rw [parse, parse, hlen, h32 0 (by decide), h16 4 (by decide), h16 6 (by decide),
    h16 8 (by decide), h16 10 (by decide), h16 12 (by decide), h16 26 (by decide),
    h16 28 (by decide), hdescriptor]

namespace Locator

variable {l : Locator} {e : Entry} {name : Bytes}

theorem dataOffsetIn_congr {bs bs' : Bytes} (htake : bs'.take 30 = bs.take 30)
    (hnormal : normalizeName bs' = normalizeName bs) :
    dataOffsetIn bs' e name = dataOffsetIn bs e name := by
  have hlen : bs'.length = bs.length := length_eq_of_normalizeName hnormal
  have hmatch : namesMatch (bs'.drop LocalHeader.fixedSize) name =
      namesMatch (bs.drop LocalHeader.fixedSize) name := by
    rw [Bool.eq_iff_iff, namesMatch_iff, namesMatch_iff, normalizeName, List.map_drop,
      ← normalizeName, hnormal, normalizeName, ← List.map_drop, ← normalizeName]
  rw [dataOffsetIn, dataOffsetIn, LocalHeader.parse_congr hlen htake, hmatch]

/-- **Locating does not depend on how the names in the directory are spelled**, whether or not it
succeeds: of a local header before the directory, the fixed part ends before the first of them. -/
theorem locate_alike (h : s.Alike l.directoryOffset.toNat s')
    (hle : e.headerOffset.toNat ≤ l.directoryOffset.toNat) :
    l.locate s' e name = l.locate s e name := by
  have hheader : (s'.read e.headerOffset.toNat (LocalHeader.fixedSize + name.length) >>=
        fun bs => dataOffsetIn bs e name) =
      s.read e.headerOffset.toNat (LocalHeader.fixedSize + name.length) >>=
        fun bs => dataOffsetIn bs e name := by
    rw [Stream.read_eq, Stream.read_eq, h.size_eq]
    split
    · refine dataOffsetIn_congr ?_ (h.normalizeName_field _ _)
      have hfirst : ∀ bs : Bytes, (bs.field e.headerOffset.toNat (30 + name.length)).take 30 =
          bs.field e.headerOffset.toNat 30 := fun bs => by
        rw [Bytes.field, List.take_take, min_eq_left (by omega), Bytes.field]
      exact (hfirst _).trans ((h.field (by omega)).trans (hfirst _).symm)
    · rfl
  rw [locate, locate, expectedOffset, expectedOffset, hheader]

end Locator

namespace Entry

variable {codec : Codec} {e : Entry}

theorem stored_alike (h : s.Alike n s')
    (hend : ∀ d, e.dataOffset = some d → d.toNat + e.compressedSize ≤ n) :
    e.stored s' = e.stored s := by
  unfold stored
  cases hd : e.dataOffset with
  | none => rfl
  | some d => exact h.read ((hend d hd).trans (Nat.le_add_right _ _))

theorem validate_alike (h : s.Alike n s')
    (hend : ∀ d, e.dataOffset = some d → d.toNat + e.compressedSize ≤ n) :
    e.validate codec s' = e.validate codec s := by
  rw [validate, validate, stored_alike h hend]

end Entry

namespace Index

variable {options : Options} {codec : Codec} {i j : Index} {e : Entry}
  {p : Path} {headers : Headers} {record : Trailer} {listing : Listing}

/-! ## Building -/

/-- **What is read of an archive before its files are accepted** does not depend on how the names in
its directory are spelled: the trailer stands behind them, and the listing has normalized names. -/
theorem survey_respelled (h : survey s = .ok (headers, record, listing))
    (hs : s.Respelled record.directoryOffset.toNat record.directorySize.toNat s') :
    survey s' = .ok (headers, record, listing) := by
  obtain ⟨l, hl, hd, rfl, hlist⟩ := survey_eq_ok_iff.mp h
  obtain ⟨hsmall, hat, hlast, ht, hc, hsize⟩ := locate_eq_ok_iff.mp hl
  obtain ⟨hcomment, hdisk, hend⟩ := (Headers.decode_eq_ok_iff hc).mp hd
  have hroom := directory_le hl hd
  have hsame := (hs.alike (le_trans (Nat.le_add_right _ _) hroom)).size_eq
  have hend' : l.record.directoryOffset.toNat + l.record.directorySize.toNat ≤ l.offset := hend
  have htrailer : ∀ q, l.offset ≤ q → (TrailerAt s' q ↔ TrailerAt s q) := fun q hq => by
    rw [TrailerAt, TrailerAt, hsame, hs.field_behind (hend'.trans hq)]
  refine survey_eq_ok_iff.mpr ⟨l, ?_, ?_, rfl, ?_⟩
  · rw [locate_eq_ok_iff, hsame, hs.field_behind hend']
    refine ⟨hsmall, (htrailer _ le_rfl).mpr hat, fun q hq hat' => ?_, ht, hc, hsize⟩
    exact hlast q hq ((htrailer q hq.le).mp hat')
  · rw [Headers.decode_eq_ok_iff (hc.trans hsame.symm),
      hs.field_behind (hend'.trans (Nat.le_add_right _ _))]
    exact ⟨hcomment, hdisk, hend⟩
  · rw [← hlist]
    refine Listing.parse_respelled ?_
    rw [Stream.toList_slice, Stream.toList_slice]
    exact hs.directory

section Policy

variable {a : Policy} {names : NamePool} {f : ListedFile}

theorem place_alike (h : s.Alike a.locator.directoryOffset.toNat s') :
    place a s' names f = place a s names f := by
  cases hc : a.locator.check (Entry.ofListed f) (names.get f.name) with
  | error err =>
    have hfailed : ∀ s, place a s names f = .error err := fun s =>
      bind_eq_error_iff.mpr (.inl hc)
    rw [hfailed, hfailed]
  | ok u =>
    have hle : (Entry.ofListed f).headerOffset.toNat ≤ a.locator.directoryOffset.toNat :=
      (Locator.check_eq_ok_iff.mp hc).1
    have hlocate : ∀ name, a.locator.locate s' (Entry.ofListed f) name =
        a.locator.locate s (Entry.ofListed f) name := fun name => Locator.locate_alike h hle
    simp only [place, hlocate]

theorem placed_le (h : place a s names f = .ok e) : ∀ d, e.dataOffset = some d →
    d.toNat + e.compressedSize ≤ a.locator.directoryOffset.toNat := by
  obtain ⟨-, ⟨d, -, -, hd, rfl⟩ | ⟨-, rfl⟩⟩ := place_ok h
  · rintro _ ⟨⟩
    exact Locator.locate_bound hd
  · intro d hd
    cases hd

theorem accept_alike (h : s.Alike a.locator.directoryOffset.toNat s') :
    accept a codec s' names f = accept a codec s names f := by
  rw [accept, accept, place_alike h]
  cases hp : place a s names f with
  | error err => rfl
  | ok e =>
    show (if validates a e = true then e.validate codec s' >>= _ else _) = _
    rw [Entry.validate_alike h (placed_le hp)]
    rfl

end Policy

/-! ## Using an index -/

theorem Coherent.settle_alike (h : i.Coherent s) (hs : s.Alike i.directoryOffset.toNat s')
    (he : (p, e) ∈ i.tree.toList) : i.settle s' p e = i.settle s p e := by
  have hlocate : i.locator.locate s' e (i.tree.nameOf e) = i.locator.locate s e (i.tree.nameOf e) :=
    Locator.locate_alike hs (h.entries p e he).headerOffset_le
  rw [settle, settle, hlocate]

theorem Coherent.resolve_alike (h : i.Coherent s) (hs : s.Alike i.directoryOffset.toNat s')
    (path : String) : i.resolve s' path = i.resolve s path := by
  rw [resolve, resolve]
  cases hf : i.tree.find? path with
  | none => rfl
  | some e => exact h.settle_alike hs (mem_of_find? h.tree hf)

theorem Coherent.resolved_le (h : i.Coherent s) {path : String}
    (hr : i.resolve s path = (.ok e, j)) : j.Coherent s ∧ ∀ d, e.dataOffset = some d →
      d.toNat + e.compressedSize ≤ i.directoryOffset.toNat := by
  rcases resolve_cases h path with ⟨-, hr'⟩ | ⟨e', -, ⟨err, hr', -⟩ | ⟨d, j', hr', hj, -, hd⟩⟩
  · cases hr.symm.trans hr'
  · cases hr.symm.trans hr'
  · cases hr.symm.trans hr'
    refine ⟨hj, ?_⟩
    rintro _ ⟨⟩
    exact Locator.locate_bound hd

theorem Coherent.readStored_alike (h : i.Coherent s) (hs : s.Alike i.directoryOffset.toNat s')
    (path : String) : i.readStored s' path = i.readStored s path := by
  rw [readStored, readStored, h.resolve_alike hs]
  rcases hr : i.resolve s path with ⟨err | e, j⟩
  · rfl
  · exact Prod.ext (Entry.stored_alike hs (h.resolved_le hr).2) rfl

theorem Coherent.readContent_alike (h : i.Coherent s) (hs : s.Alike i.directoryOffset.toNat s')
    (path : String) : i.readContent codec s' path = i.readContent codec s path := by
  have hsame := resolve_sameArchive i s path
  rw [readContent, readContent, h.resolve_alike hs]
  rcases hr : i.resolve s path with ⟨err | e, j⟩
  · rfl
  · rw [hr] at hsame
    have hstored := (h.resolved_le hr).1.readStored_alike (hsame.2.1.symm ▸ hs) path
    simp only [hstored]

theorem Coherent.validateEntries_alike {entries : List (Path × Entry)} (h : i.Coherent s)
    (hs : s.Alike i.directoryOffset.toNat s') (hnd : (entries.map Prod.fst).Nodup)
    (hmem : ∀ x ∈ entries, x ∈ i.tree.toList) :
    validateEntries codec s' entries i = validateEntries codec s entries i := by
  -- Along the entries: those still to come are listed by the index that has settled the first one.
  induction entries generalizing i with
  | nil => rfl
  | cons x entries ih =>
    obtain ⟨p, e⟩ := x
    obtain ⟨hx, hentries⟩ := List.forall_mem_cons.mp hmem
    rw [List.map_cons, List.nodup_cons] at hnd
    have hkept := mem_settle (s := s) (e := e) h.tree hnd.1 hentries
    have hsame := settle_sameArchive i s p e
    rw [validateEntries, validateEntries, h.settle_alike hs hx]
    rcases settle_cases h hx with ⟨err, hr, -⟩ | ⟨d, j, hr, hj, -, hmem'⟩
    · rw [hr]
    · rw [hr] at hkept hsame ⊢
      have hs : s.Alike j.directoryOffset.toNat s' := hsame.2.1.symm ▸ hs
      have hbound := (hj.entries p _ hmem').located d rfl
      have hvalidate : Entry.validate codec s' { e with dataOffset := some d } =
          Entry.validate codec s { e with dataOffset := some d } := by
        refine Entry.validate_alike hs ?_
        rintro _ ⟨⟩
        exact Locator.locate_bound hbound
      simp only [hvalidate, ih hj hs hnd.2 hkept]

theorem Coherent.use_alike (h : i.Coherent s) (hs : s.Alike i.directoryOffset.toNat s') (u : Use) :
    Index.use codec s' i u = Index.use codec s i u := by
  cases u with
  | find _ => rfl
  | folder _ => rfl
  | entries => rfl
  | resolve path => exact congrArg Prod.snd (h.resolve_alike hs path)
  | readStored path => exact congrArg Prod.snd (h.readStored_alike hs path)
  | readContent path => exact congrArg Prod.snd (h.readContent_alike hs path)
  | validateAll =>
    exact congrArg Prod.snd (h.validateEntries_alike hs h.tree.nodup_paths fun _ hx => hx)
  | markDirty => rfl

/-- **Uses leave the same index** over streams that are alike. -/
theorem Coherent.useAll_alike (h : i.Coherent s) (hs : s.Alike i.directoryOffset.toNat s')
    (uses : List Use) : Index.useAll codec s' i uses = Index.useAll codec s i uses := by
  induction uses generalizing i with
  | nil => rw [Index.useAll, Index.useAll, List.foldl_nil, List.foldl_nil]
  | cons u uses ih =>
    have hsame := use_sameArchive codec s i u
    rw [Index.useAll, Index.useAll, List.foldl_cons, List.foldl_cons, h.use_alike hs]
    exact ih (h.use codec u) (hsame.2.1.symm ▸ hs)

/-! ## Answers -/

/-- Whether two answers for paths `p` and `q` are the same, up to the path that is quoted if there
is no such file. -/
def SameAnswer {α : Type} (p q : String) (x y : Except Error α × Index) : Prop :=
  y = x ∨ ∃ i, x = (.error (.fileNotFound p), i) ∧ y = (.error (.fileNotFound q), i)

/-- **Paths that are equal in normalized form** get the same answers. -/
theorem Coherent.answers_of_normalizePath (h : i.Coherent s) (codec : Codec) {q r : String}
    (hnormal : normalizePath q = normalizePath r) :
    i.find? r = i.find? q ∧ i.folder? r = i.folder? q ∧
      SameAnswer q r (i.resolve s q) (i.resolve s r) ∧
      SameAnswer q r (i.readStored s q) (i.readStored s r) ∧
      SameAnswer q r (i.readContent codec s q) (i.readContent codec s r) := by
  have hquery := querySegments_congr hnormal
  have hfind : ∀ j : Index, j.find? r = j.find? q := fun j => by
    rw [find?, find?, Tree.find?, Tree.find?, hquery]
  refine ⟨hfind i, ?_, ?_⟩
  · rw [folder?, folder?, Tree.folder?, Tree.folder?, hquery]
  have hsame : (i.find? q).isSome → i.resolve s r = i.resolve s q := fun hsome => by
    obtain ⟨e, hf⟩ := Option.isSome_iff_exists.mp hsome
    have hf' := (hfind i).trans hf
    change i.tree.find? q = some e at hf
    change i.tree.find? r = some e at hf'
    rw [resolve, resolve, hf, hf', hquery]
  rcases resolve_cases h q with ⟨hf, hr⟩ | ⟨e, hf, ⟨err, hr, -⟩ | ⟨d, j, hr, hj, hfj, -⟩⟩
  · have hr' : i.resolve s r = (.error (.fileNotFound r), i) := by
      have hf' : i.tree.find? r = none := (hfind i).trans hf
      rw [resolve, hf']
    refine ⟨.inr ⟨i, hr, hr'⟩, .inr ⟨i, ?_, ?_⟩, .inr ⟨i, ?_, ?_⟩⟩ <;>
      simp only [readStored, readContent, hr, hr']
  · have hr' := (hsame (hf ▸ rfl)).trans hr
    refine ⟨.inl (hr'.trans hr.symm), .inl ?_, .inl ?_⟩ <;>
      simp only [readStored, readContent, hr, hr']
  · have hr' := (hsame (hf ▸ rfl)).trans hr
    obtain ⟨hstored, hcontent⟩ := read_of_resolve hj hr hfj codec
    obtain ⟨hstored', hcontent'⟩ := read_of_resolve hj hr' ((hfind j).trans hfj) codec
    exact ⟨.inl (hr'.trans hr.symm), .inl (hstored'.trans hstored.symm),
      .inl (hcontent'.trans hcontent.symm)⟩

/-- **Case and separators of stored names do not count.** An archive that is built at some level is
built with the same index if the names in its directory are spelled otherwise, those of folder
markers included. Whatever the index is used for first, it is the same over both archives; and paths
that are equal in normalized form then get the same answers, one over the one archive and the other
over the other. -/
theorem build_respelled (h : build options codec s = .ok i)
    (hs : s.Respelled i.directoryOffset.toNat i.directorySize.toNat s') :
    build options codec s' = .ok i ∧ ∀ uses : List Use,
      let j := i.useAll codec s uses
      i.useAll codec s' uses = j ∧ ∀ q r, normalizePath q = normalizePath r →
        j.find? r = j.find? q ∧ j.folder? r = j.folder? q ∧
        SameAnswer q r (j.resolve s q) (j.resolve s' r) ∧
        SameAnswer q r (j.readStored s q) (j.readStored s' r) ∧
        SameAnswer q r (j.readContent codec s q) (j.readContent codec s' r) := by
  have hcoherent := build_coherent h
  have halike := hs.alike hcoherent.directoryOffset_le
  refine ⟨?_, fun uses => ⟨hcoherent.useAll_alike halike uses, fun q r hnormal => ?_⟩⟩
  · obtain ⟨headers, record, listing, es, hsurvey, hes, rfl⟩ := build_eq_ok_iff.mp h
    refine build_eq_ok_iff.mpr ⟨headers, record, listing, es, survey_respelled hsurvey hs, ?_, rfl⟩
    exact hes.imp fun f e he => (accept_alike halike).trans he
  · have hj := hcoherent.useAll codec uses
    have hs' := (useAll_sameArchive codec s i uses).2.1.symm ▸ halike
    rw [hj.resolve_alike hs', hj.readStored_alike hs', hj.readContent_alike hs']
    exact hj.answers_of_normalizePath codec hnormal

/-- A file and a folder marker are spelled otherwise. -/
theorem build_respelled_marker :
    let f := Packed.plain [0x41, 0x5C, 0x62] [1, 2, 3]
    let directory name marker := (f.record 0).encode name ++ (f.record 0).encode marker
    let archive name marker := Stream.ofBytes
      (f.bytes ++ directory name marker ++ Trailer.encode (.singleVolume 2 36 97 0))
    let codec : Codec := fun _ stored _ => .ok stored
    let s := archive [0x41, 0x5C, 0x62] [0x44, 0x5C]
    let s' := archive [0x61, 0x2F, 0x42] [0x64, 0x2F]
    ∃ i, build {} codec s = .ok i ∧ build {} codec s' = .ok i ∧
      SameAnswer "A\\B" "a/b" (i.readStored s "A\\B") (i.readStored s' "a/b") := by
  intro f directory archive codec s s'
  have hbuild : (build {} codec s).toOption.map (fun i => (i.directoryOffset, i.directorySize)) =
      some (36, 97) := by decide +kernel
  obtain ⟨i, hi, hplace⟩ := Option.map_eq_some_iff.mp hbuild
  obtain ⟨hoffset, hsize⟩ := Prod.mk.inj hplace
  have hi := toOption_eq_some_iff.mp hi
  have hdirectory : Listing.Respelled (directory [0x41, 0x5C, 0x62] [0x44, 0x5C])
      (directory [0x61, 0x2F, 0x42] [0x64, 0x2F]) := by
    have hmarker := Listing.Respelled.nil.row (f.record 0, [0x44, 0x5C]) [0x64, 0x2F]
      (by decide) (by decide) (by decide)
    have hfile := hmarker.row (f.record 0, [0x41, 0x5C, 0x62]) [0x61, 0x2F, 0x42]
      (by decide) (by decide) (by decide)
    rw [List.append_nil, List.append_nil] at hfile
    exact hfile
  have hs : s.Respelled i.directoryOffset.toNat i.directorySize.toNat s' := by
    rw [hoffset, hsize]
    refine ⟨by decide +kernel, ?_, by decide +kernel⟩
    have hfield : s.toList.field 36 97 = directory [0x41, 0x5C, 0x62] [0x44, 0x5C] := by
      decide +kernel
    have hfield' : s'.toList.field 36 97 = directory [0x61, 0x2F, 0x42] [0x64, 0x2F] := by
      decide +kernel
    show Listing.Respelled (s.toList.field 36 97) (s'.toList.field 36 97)
    rw [hfield, hfield']
    exact hdirectory
  obtain ⟨hi', huses⟩ := build_respelled hi hs
  obtain ⟨-, hanswers⟩ := huses []
  have hpaths : normalizePath "A\\B" = normalizePath "a/b" := by
    rw [normalizePath, normalizePath, ← String.toList_inj, String.toList_map, String.toList_map]
    rfl
  obtain ⟨-, -, -, hstored, -⟩ := hanswers "A\\B" "a/b" hpaths
  exact ⟨i, hi, hi', hstored⟩

end Index

end PakIndex
