import PakIndex.Proofs.Index.Layout

/-!
# Files that overlap

* `Entry.Occupies`, `Entry.Apart`: the bytes of a file, and files that share none.
* `Entry.Fits`, `Entry.Precedes`: files that end in their slots, and files one behind the other.
* **`Locator.normalizeName_eq_of_locate`**: a local header is of one name.
* `Index.Coherent.fits_iff`: a file ends in its slot if the files behind it start after its end.
* **`Index.build_extents`**: how the files of an archive lie whose payloads were all located. They
  may overlap, and do not if all of them end in their slots.
* `Index.build_extents_nested`: a file in the payload of another one.
-/

namespace PakIndex

/-! ## The bytes of a file -/

namespace Entry

variable {e f : Entry} {name : Bytes} {stop : UInt32} {n : Nat}

/-- Whether the byte at a position belongs to a file: to its local header, its name or its payload,
or to what stands between these. -/
def Occupies (e : Entry) (pos : Nat) : Prop :=
  e.headerOffset.toNat ≤ pos ∧ ∃ n ∈ e.endOffset, pos < n

/-- Whether no byte belongs to two files. -/
def Apart (e f : Entry) : Prop := ∀ pos, ¬ (e.Occupies pos ∧ f.Occupies pos)

/-- Whether a file ends in its slot. -/
def Fits (e : Entry) : Prop := ∃ n ∈ e.endOffset, n ≤ e.slotEnd.toNat

/-- Whether a file ends before the header of another one. -/
def Precedes (e f : Entry) : Prop := ∃ n ∈ e.endOffset, n ≤ f.headerOffset.toNat

theorem Within.end_le (h : e.Within stop name) (hn : e.endOffset = some n) :
    e.headerOffset.toNat + 30 + name.length + e.compressedSize ≤ n ∧ n ≤ stop.toNat := by
  obtain ⟨d, hd, rfl⟩ := Option.map_eq_some_iff.mp hn
  obtain ⟨hstart, hend, -⟩ := h.placed d hd
  exact ⟨by omega, hend⟩

theorem exists_endOffset (h : e.isResolved = true) : ∃ n, e.endOffset = some n := by
  obtain ⟨d, hd⟩ := Option.isSome_iff_exists.mp h
  exact ⟨_, by rw [endOffset, hd]; rfl⟩

theorem Fits.isResolved (h : e.Fits) : e.isResolved = true := by
  obtain ⟨n, hn, -⟩ := h
  obtain ⟨d, hd, -⟩ := Option.map_eq_some_iff.mp hn
  rw [Entry.isResolved, hd]
  rfl

theorem Precedes.apart (h : e.Precedes f) : e.Apart f := by
  obtain ⟨n, hn, hle⟩ := h
  rintro pos ⟨⟨-, m, hm, hpos⟩, ⟨hpos', -⟩⟩
  cases Option.some.inj (hn.symm.trans hm)
  omega

theorem Apart.symm (h : e.Apart f) : f.Apart e := fun pos hpos => h pos hpos.symm

end Entry

/-- Whether a file that is not empty is at a path. -/
def Tree.Stores (t : Tree) (p : Path) (e : Entry) : Prop :=
  (p, e) ∈ t.toList ∧ e.compressedSize ≠ 0

/-! ## Local headers -/

theorem LocalHeader.nameLength_of_parse {bs : Bytes} {header : LocalHeader}
    (h : parse bs = .ok (some header)) : header.nameLength = bs.u16At 26 := by
  unfold parse at h
  split_ifs at h <;> cases h
  rfl

namespace Locator

variable {l : Locator} {s : Stream} {e f : Entry} {name name' : Bytes} {d d' : UInt32}

theorem header_of_locate (henc : l.encryption.isEncrypted = false)
    (hroom : l.directoryOffset.toNat ≤ s.size) (h : l.locate s e name = .ok d) :
    (s.toList.u16At (e.headerOffset.toNat + 26)).toNat = name.length ∧
      normalizeName (s.toList.field (e.headerOffset.toNat + 30) name.length) =
        normalizeName name := by
  obtain ⟨hstart, hend, -⟩ := locate_within h
  obtain ⟨offset, ho, -⟩ := locate_eq_ok_iff.mp h
  have hfixed : LocalHeader.fixedSize = 30 := rfl
  rw [expectedOffset, if_neg (by rw [henc]; decide), Stream.read_of_le (by omega)] at ho
  obtain ⟨header, hparse, -, -, hlen, hmatch, -⟩ := dataOffsetIn_eq_ok_iff.mp ho
  rw [LocalHeader.nameLength_of_parse hparse, Bytes.u16At, Bytes.field_field (by omega)] at hlen
  rw [Bytes.drop_field, hfixed, Nat.add_sub_cancel_left, namesMatch_iff] at hmatch
  exact ⟨hlen, hmatch⟩

/-- **A local header is of one name.** -/
theorem normalizeName_eq_of_locate (henc : l.encryption.isEncrypted = false)
    (hroom : l.directoryOffset.toNat ≤ s.size) (h : l.locate s e name = .ok d)
    (h' : l.locate s f name' = .ok d') (heq : e.headerOffset = f.headerOffset) :
    normalizeName name = normalizeName name' := by
  obtain ⟨hlen, hname⟩ := header_of_locate henc hroom h
  obtain ⟨hlen', hname'⟩ := header_of_locate henc hroom h'
  rw [heq, hlen'] at hlen
  rw [heq, ← hlen] at hname
  exact hname.symm.trans hname'

end Locator

/-! ## Slots -/

namespace Index

variable {i : Index} {s : Stream} {options : Options} {codec : Codec} {p q : Path} {e f : Entry}
  {pre post : List (Path × Entry)} {x y : Path × Entry}

theorem header_le_of_split (hsplit : i.tree.byHeader = pre ++ x :: post) (hy : y ∈ post) :
    x.2.headerOffset.toNat ≤ y.2.headerOffset.toNat := by
  have hsorted : i.tree.byHeader.Pairwise _ := Tree.sortByHeader_pairwise i.tree.toList
  rw [hsplit, List.pairwise_append] at hsorted
  exact UInt32.le_iff_toNat_le.mp ((List.pairwise_cons.mp hsorted.2.1).1 y hy)

theorem split_of_ne (he : (p, e) ∈ i.tree.toList) (hf : (q, f) ∈ i.tree.toList) (hne : p ≠ q) :
    (∃ pre post, i.tree.byHeader = pre ++ (p, e) :: post ∧ (q, f) ∈ post) ∨
      ∃ pre post, i.tree.byHeader = pre ++ (q, f) :: post ∧ (p, e) ∈ post := by
  obtain ⟨pre, post, hsplit⟩ := List.append_of_mem (mem_byHeader.mpr he)
  have hmem := mem_byHeader.mpr hf
  rw [hsplit, List.mem_append, List.mem_cons] at hmem
  rcases hmem with hpre | heq | hpost
  · obtain ⟨pre', between, rfl⟩ := List.append_of_mem hpre
    refine .inr ⟨pre', between ++ (p, e) :: post, ?_, by simp⟩
    rw [hsplit, List.append_assoc, List.cons_append]
  · exact absurd (Prod.mk.inj heq).1.symm hne
  · exact .inl ⟨pre, post, hsplit, hpost⟩

theorem ne_of_split (h : i.tree.WellFormed) (hsplit : i.tree.byHeader = pre ++ (p, e) :: post)
    (hf : (q, f) ∈ post) : p ≠ q := by
  have hkeys := ((Tree.sortByHeader_perm i.tree.toList).map Prod.fst).nodup_iff.mpr h.nodup_paths
  change (i.tree.byHeader.map Prod.fst).Nodup at hkeys
  rw [hsplit, List.map_append, List.nodup_append] at hkeys
  rintro rfl
  exact (List.nodup_cons.mp hkeys.2.1).1 (List.mem_map.mpr ⟨(p, f), hf, rfl⟩)

/-- **A file ends in its slot** if all files behind it start after its end, and only then. -/
theorem Coherent.fits_iff (h : i.Coherent s) (hsplit : i.tree.byHeader = pre ++ (p, e) :: post)
    (hresolved : e.isResolved = true) : e.Fits ↔ ∀ x ∈ post, e.Precedes x.2 := by
  have he : (p, e) ∈ i.tree.toList := mem_byHeader.mp (by rw [hsplit]; simp)
  obtain ⟨n, hn⟩ := Entry.exists_endOffset hresolved
  have hend := ((h.laidOut.entries p e he).end_le hn).2
  have hslot := (h.slots p e he).trans (Tree.slotOf_eq_next h.tree.nodup_paths hsplit)
  rw [Entry.Fits, hslot]
  cases post with
  | nil => exact ⟨fun _ => nofun, fun _ => ⟨n, hn, hend⟩⟩
  | cons y post =>
    constructor
    · rintro ⟨m, hm, hle⟩ x hx
      refine ⟨m, hm, le_trans hle ?_⟩
      rcases List.mem_cons.mp hx with rfl | hx
      · exact le_rfl
      · have hnext : i.tree.byHeader = (pre ++ [(p, e)]) ++ y :: post := by
          rw [hsplit, List.append_assoc, List.singleton_append]
        exact header_le_of_split hnext hx
    · exact fun hall => hall y List.mem_cons_self

/-- **Files that end in their slots lie one behind the other.** -/
theorem Coherent.precedes_of_fits (h : i.Coherent s) (he : (p, e) ∈ i.tree.toList)
    (hf : (q, f) ∈ i.tree.toList) (hne : p ≠ q) (hfits : e.Fits) (hfits' : f.Fits) :
    e.Precedes f ∨ f.Precedes e := by
  rcases split_of_ne he hf hne with ⟨pre, post, hsplit, hx⟩ | ⟨pre, post, hsplit, hx⟩
  · exact .inl ((h.fits_iff hsplit hfits.isResolved).mp hfits _ hx)
  · exact .inr ((h.fits_iff hsplit hfits'.isResolved).mp hfits' _ hx)

theorem Coherent.precedes_of_lt (h : i.Coherent s) (he : (p, e) ∈ i.tree.toList)
    (hf : (q, f) ∈ i.tree.toList) (hlt : e.headerOffset.toNat < f.headerOffset.toNat)
    (hfits : e.Fits) : e.Precedes f := by
  have hne : p ≠ q := by
    rintro rfl
    cases h.tree.entry_eq he hf
    exact lt_irrefl _ hlt
  rcases split_of_ne he hf hne with ⟨pre, post, hsplit, hx⟩ | ⟨pre, post, hsplit, hx⟩
  · exact (h.fits_iff hsplit hfits.isResolved).mp hfits _ hx
  · have hle : f.headerOffset.toNat ≤ e.headerOffset.toNat := header_le_of_split hsplit hx
    omega

theorem Coherent.fits_of_apart (h : i.Coherent s)
    (hresolved : ∀ p e, (p, e) ∈ i.tree.toList → e.isResolved = true)
    (hapart : ∀ p e q f, (p, e) ∈ i.tree.toList → (q, f) ∈ i.tree.toList → p ≠ q → e.Apart f)
    (he : (p, e) ∈ i.tree.toList) : e.Fits := by
  obtain ⟨pre, post, hsplit⟩ := List.append_of_mem (mem_byHeader.mpr he)
  obtain ⟨n, hn⟩ := Entry.exists_endOffset (hresolved p e he)
  refine (h.fits_iff hsplit (hresolved p e he)).mpr fun x hx => ⟨n, hn, ?_⟩
  obtain ⟨q, f⟩ := x
  have hf : (q, f) ∈ i.tree.toList := mem_byHeader.mp (by rw [hsplit]; simp [hx])
  have hne : p ≠ q := ne_of_split h.tree hsplit hx
  -- The first byte of the header behind would belong to both files otherwise.
  obtain ⟨m, hm⟩ := Entry.exists_endOffset (hresolved q f hf)
  have hroom := ((h.laidOut.entries q f hf).end_le hm).1
  have hle : e.headerOffset.toNat ≤ f.headerOffset.toNat := header_le_of_split hsplit hx
  by_contra hover
  refine hapart p e q f he hf hne f.headerOffset.toNat ⟨⟨hle, n, hn, ?_⟩, le_rfl, m, hm, ?_⟩
  · exact not_le.mp hover
  · omega

/-! ## Archives whose payloads were located -/

theorem isResolved_of_build (h : build options codec s = .ok i)
    (hinit : options.init.atLeastFull = true) (he : i.tree.Stores p e) : e.isResolved = true := by
  obtain ⟨f, e₀, hacc, heq⟩ := mem_of_build h he.1
  obtain ⟨-, ⟨d, -, -, -, rfl⟩ | ⟨hlazy, rfl⟩⟩ := place_ok (accept_ok hacc)
  · rw [heq]
    rfl
  · refine absurd ⟨?_, ?_⟩ hlazy
    · rw [Policy.isEager, hinit]
      exact Bool.or_true _
    · have hne := he.2
      rw [heq] at hne
      exact hne

theorem Coherent.path_eq (h : i.Coherent s) (henc : i.headers.encryption.isEncrypted = false)
    (he : (p, e) ∈ i.tree.toList) (hf : (q, f) ∈ i.tree.toList) (hresolved : e.isResolved = true)
    (hresolved' : f.isResolved = true) (heq : e.headerOffset = f.headerOffset) : p = q := by
  obtain ⟨d, hd⟩ := Option.isSome_iff_exists.mp hresolved
  obtain ⟨d', hd'⟩ := Option.isSome_iff_exists.mp hresolved'
  have hsound := h.entries p e he
  have hsound' := h.entries q f hf
  have hname := Locator.normalizeName_eq_of_locate (l := i.locator) henc h.directoryOffset_le
    (hsound.located d hd) (hsound'.located d' hd') heq
  rw [hsound.normal, hsound'.normal] at hname
  rw [h.tree.path_of_mem he, h.tree.path_of_mem hf, Tree.nameOf, Tree.nameOf, hname]

/-- **How the files of an archive lie whose payloads were all located.** A file that is not empty
has its place between its local header and the directory. Two of them have different headers, unless
the archive is encrypted and headers are not looked at. A file ends in its slot exactly if no file
behind it, in the order of the headers, starts before its end. This is not asked for, so that files
may overlap; they share no byte if all of them end in their slots, and do that if they share none
and none is empty. -/
theorem build_extents (h : build options codec s = .ok i)
    (hinit : options.init.atLeastFull = true) :
    (∀ p e, i.tree.Stores p e → e.isResolved = true ∧
      e.Within i.directoryOffset (i.tree.nameOf e)) ∧
    (i.headers.encryption.isEncrypted = false → ∀ p e q f, i.tree.Stores p e → i.tree.Stores q f →
      e.headerOffset = f.headerOffset → p = q) ∧
    (∀ pre p e post, i.tree.byHeader = pre ++ (p, e) :: post → e.compressedSize ≠ 0 →
      (e.Fits ↔ ∀ x ∈ post, e.Precedes x.2)) ∧
    ((∀ p e, i.tree.Stores p e → e.Fits) → ∀ p e q f, i.tree.Stores p e → i.tree.Stores q f →
      p ≠ q → e.Apart f) ∧
    ((∀ p e, (p, e) ∈ i.tree.toList → e.compressedSize ≠ 0) →
      (∀ p e q f, i.tree.Stores p e → i.tree.Stores q f → p ≠ q → e.Apart f) →
        ∀ p e, i.tree.Stores p e → e.Fits) := by
  have hcoherent := build_coherent h
  have hresolved : ∀ p e, i.tree.Stores p e → e.isResolved = true := fun p e he =>
    isResolved_of_build h hinit he
  refine ⟨fun p e he => ⟨hresolved p e he, hcoherent.laidOut.entries p e he.1⟩, ?_, ?_, ?_, ?_⟩
  · intro henc p e q f he hf
    exact hcoherent.path_eq henc he.1 hf.1 (hresolved p e he) (hresolved q f hf)
  · intro pre p e post hsplit hne
    have he : (p, e) ∈ i.tree.toList := mem_byHeader.mp (by rw [hsplit]; simp)
    exact hcoherent.fits_iff hsplit (hresolved p e ⟨he, hne⟩)
  · intro hfits p e q f he hf hne
    rcases hcoherent.precedes_of_fits he.1 hf.1 hne (hfits p e he) (hfits q f hf) with hef | hfe
    · exact hef.apart
    · exact hfe.apart.symm
  · intro hfull hapart p e he
    refine hcoherent.fits_of_apart (fun p e he => hresolved p e ⟨he, hfull p e he⟩) ?_ he.1
    intro p e q f he hf
    exact hapart p e q f ⟨he, hfull p e he⟩ ⟨hf, hfull q f hf⟩

/-- Two files of an archive, one behind the other, end in their slots. -/
theorem build_extents_plain :
    let s := Stream.ofBytes
      (Packed.archive [Packed.plain [0x62] [1, 2, 3], Packed.plain [0x61] [4]] [])
    let codec : Codec := fun _ stored _ => .ok stored
    ∃ i p e q f, build { init := .full } codec s = .ok i ∧ i.tree.Stores p e ∧ i.tree.Stores q f ∧
      p ≠ q ∧ e.headerOffset ≠ f.headerOffset ∧ e.Apart f ∧ e.Fits ∧ f.Fits := by
  intro s codec
  let key : NamePool → Path × Entry → Path × UInt32 × Option Nat × Nat := fun _ x =>
    (x.1, x.2.headerOffset, x.2.endOffset, x.2.compressedSize)
  have hfiles : ∀ f ∈ [Packed.plain [0x62] [1, 2, 3], Packed.plain [0x61] [4]], f.Valid := by
    simp only [List.forall_mem_cons]
    exact ⟨Packed.valid_plain ⟨0x62, rfl, by decide⟩ (by decide) (by decide),
      Packed.valid_plain ⟨0x61, rfl, by decide⟩ (by decide) (by decide), List.forall_mem_nil _⟩
  obtain ⟨i, hi, -, hkeys⟩ : ∃ i, build { init := .full } codec s = .ok i ∧ _ ∧
      i.tree.toList.map (key i.tree.names) =
        [([[0x61]], 34, some 66, 1), ([[0x62]], 0, some 34, 3)] :=
    Packed.build_of_map hfiles (by decide) (by decide +kernel) _ codec key (fun _ _ _ _ => rfl)
      (by decide +kernel)
  obtain ⟨⟨p, e⟩, l, hlist, hkey, hrest⟩ := List.map_eq_cons_iff.mp hkeys
  obtain ⟨⟨q, f⟩, rfl, hkey'⟩ := List.map_eq_singleton_iff.mp hrest
  simp only [key, Prod.mk.injEq] at hkey hkey'
  obtain ⟨rfl, hheader, hend, hsize⟩ := hkey
  obtain ⟨rfl, hheader', hend', hsize'⟩ := hkey'
  have hstart : e.headerOffset.toNat = 34 := by rw [hheader]; rfl
  have hstart' : f.headerOffset.toNat = 0 := by rw [hheader']; rfl
  have hapart : e.Apart f := by
    rintro pos ⟨⟨hpos, -⟩, -, n, hn, hpos'⟩
    cases Option.some.inj (hend'.symm.trans hn)
    omega
  have hmem : ∀ p x, (p, x) ∈ i.tree.toList ↔ p = [[0x61]] ∧ x = e ∨ p = [[0x62]] ∧ x = f := by
    intro p x
    rw [hlist, List.mem_pair, Prod.mk.injEq, Prod.mk.injEq]
  have he : i.tree.Stores [[0x61]] e := ⟨(hmem _ _).mpr (.inl ⟨rfl, rfl⟩), by omega⟩
  have hf : i.tree.Stores [[0x62]] f := ⟨(hmem _ _).mpr (.inr ⟨rfl, rfl⟩), by omega⟩
  obtain ⟨-, -, -, -, hfits⟩ := build_extents hi rfl
  have hall : ∀ p x, i.tree.Stores p x → x.Fits := by
    refine hfits (fun p x hx => ?_) fun p x q y hx hy hne => ?_
    · rcases (hmem p x).mp hx with ⟨-, rfl⟩ | ⟨-, rfl⟩ <;> omega
    · rcases (hmem p x).mp hx.1 with ⟨rfl, rfl⟩ | ⟨rfl, rfl⟩ <;>
        rcases (hmem q y).mp hy.1 with ⟨rfl, rfl⟩ | ⟨rfl, rfl⟩
      exacts [absurd rfl hne, hapart, hapart.symm, absurd rfl hne]
  refine ⟨i, _, e, _, f, hi, he, hf, by decide, fun heq => ?_, hapart, hall _ e he, hall _ f hf⟩
  rw [heq] at hstart
  omega

end Index

/-! ## A file in the payload of another one -/

namespace Nested

/-- A file in the payload of another one. -/
def inner : PackedFile := Packed.plain [0x62] [1]

/-- A file whose payload is another file, with its local header and name. -/
def outer : PackedFile := Packed.plain [0x61] inner.bytes

/-- The directory lists both files. -/
def directory : Bytes :=
  (outer.record 0).encode outer.name ++ (inner.record 31).encode inner.name

/-- The bytes of the archive. -/
def archive : Bytes :=
  outer.bytes ++ (directory ++ (Trailer.singleVolume 2 63 (.ofNat directory.length) 0).encode)

def rows : List Listing.Row := [(outer.record 0, outer.name), (inner.record 31, inner.name)]

theorem flatMap_rows : rows.flatMap Listing.Row.encode = directory := by
  rw [rows, List.flatMap_cons, List.flatMap_singleton]
  rfl

theorem length_directory : directory.length = 94 := by
  rw [directory, List.length_append, DirectoryRecord.length_encode, DirectoryRecord.length_encode]
  rfl

theorem survey_archive : Index.survey (.ofBytes archive) =
    .ok ({}, .singleVolume 2 63 94 0, Listing.ofRows rows) := by
  have hinner : inner.Valid := Packed.valid_plain ⟨0x62, rfl, by decide⟩ (by decide) (by decide)
  have houter : outer.Valid := Packed.valid_plain ⟨0x61, rfl, by decide⟩ (by decide) (by decide)
  have w : Index.Written (.ofBytes archive) outer.bytes rows (.singleVolume 2 63 94 0) [] := by
    refine ⟨?_, ?_, ?_, ⟨by decide, rfl, rfl⟩, ?_, ?_, rfl, fun k h h' => ?_⟩
    · rw [Stream.toList_ofBytes, archive, flatMap_rows, length_directory, List.append_nil]
      rfl
    · rw [Stream.size_ofBytes, archive]
      simp only [List.length_append, length_directory, Trailer.length_encode,
        PackedFile.length_bytes]
      decide
    · rw [rows, List.forall_mem_cons, List.forall_mem_singleton]
      exact ⟨Packed.record_writable houter 0, Packed.record_writable hinner 31⟩
    · rw [PackedFile.length_bytes]
      rfl
    · rw [flatMap_rows, length_directory]
      rfl
    · exact absurd (h.trans_le h') (Nat.not_lt_zero 8)
  exact Index.survey_written_short w (by decide) rfl

end Nested

namespace Index

/-- **Files may overlap**: one of these ends behind its slot, in which the other one starts. -/
theorem build_extents_nested :
    let s := Stream.ofBytes Nested.archive
    let codec : Codec := fun _ stored _ => .ok stored
    ∃ i p e q f, build { init := .full } codec s = .ok i ∧ i.tree.Stores p e ∧
      i.tree.Stores q f ∧ p ≠ q ∧ e.Occupies 31 ∧ f.Occupies 31 ∧ ¬ e.Fits := by
  intro s codec
  let key : NamePool → Path × Entry → Path × UInt32 × Option Nat × Nat := fun _ x =>
    (x.1, x.2.headerOffset, x.2.endOffset, x.2.compressedSize)
  -- The slots are left out here, since to sort is more than the kernel evaluates.
  obtain ⟨i, hi, -, -, hkeys⟩ : ∃ i, build { init := .full } codec s = .ok i ∧ _ ∧ _ ∧
      i.tree.toList.map (key i.tree.names) =
        [([[0x61]], 0, some 63, 32), ([[0x62]], 31, some 63, 1)] :=
    build_of_map _ codec key Nested.survey_archive (fun _ _ _ _ => rfl) (by decide +kernel)
  have hmem : ∀ k ∈ i.tree.toList.map (key i.tree.names), ∃ x ∈ i.tree.toList,
      key i.tree.names x = k := fun k hk => List.mem_map.mp hk
  obtain ⟨⟨p, e⟩, he, hkey⟩ := hmem ([[0x61]], 0, some 63, 32) (by rw [hkeys]; simp)
  obtain ⟨⟨q, f⟩, hf, hkey'⟩ := hmem ([[0x62]], 31, some 63, 1) (by rw [hkeys]; simp)
  simp only [key, Prod.mk.injEq] at hkey hkey'
  obtain ⟨rfl, hheader, hend, hsize⟩ := hkey
  obtain ⟨rfl, hheader', hend', hsize'⟩ := hkey'
  have hstart : e.headerOffset.toNat = 0 := by rw [hheader]; rfl
  have hstart' : f.headerOffset.toNat = 31 := by rw [hheader']; rfl
  refine ⟨i, _, e, _, f, hi, ⟨he, by omega⟩, ⟨hf, by omega⟩, by decide,
    ⟨by omega, 63, hend, by decide⟩, ⟨by omega, 63, hend', by decide⟩, fun hfits => ?_⟩
  obtain ⟨n, hn, hle⟩ := (build_coherent hi).precedes_of_lt he hf (by omega) hfits
  cases Option.some.inj (hend.symm.trans hn)
  omega

end Index

end PakIndex
