import PakIndex.Proofs.Headers.Checks
import PakIndex.Proofs.Index.Accept
import PakIndex.Proofs.Trailer.Search

/-!
# Building an index

* `Index.survey_eq_ok_iff`: what is read of an archive before its files are accepted, none of it
  from outside the archive.
* `Index.Coherent`: what holds of an index over a stream; **`Index.build_coherent`**: it holds of
  every index that is built.
* **`Index.mem_of_build`**: where its entries come from.
* **`Index.build_failure`**: how building fails.
-/

namespace PakIndex.Index

variable {s : Stream} {options : Options} {codec : Codec} {i : Index} {headers : Headers}
  {record : Trailer} {listing : Listing} {err : Error}

/-! ## What is read first -/

theorem directory_le {l : LocatedTrailer} (hl : locate s = .ok l)
    (hd : Headers.decode s l = .ok headers) :
    l.record.directoryOffset.toNat + l.record.directorySize.toNat ≤ s.size := by
  obtain ⟨-, hat, -, -, hc, -⟩ := locate_eq_ok_iff.mp hl
  obtain ⟨-, -, hend⟩ := (Headers.decode_eq_ok_iff hc).mp hd
  exact hend.trans (le_trans (Nat.le_add_right _ _) hat.1)

/-- **What is read of an archive before its files are accepted**: nothing from outside of it. -/
theorem survey_eq_ok_iff : survey s = .ok (headers, record, listing) ↔
    ∃ l, locate s = .ok l ∧ Headers.decode s l = .ok headers ∧ l.record = record ∧
      Listing.parse (s.slice record.directoryOffset.toNat record.directorySize.toNat) =
        .ok listing := by
  simp only [survey, bind_eq_ok_iff]
  constructor
  · rintro ⟨l, hl, headers, hd, directory, hp, listing, hlist, ⟨⟩⟩
    rw [Stream.part_of_le (directory_le hl hd)] at hp
    cases hp
    exact ⟨l, hl, hd, rfl, hlist⟩
  · rintro ⟨l, hl, hd, rfl, hlist⟩
    exact ⟨l, hl, headers, hd, _, Stream.part_of_le (directory_le hl hd), listing, hlist, rfl⟩

theorem survey_error (h : survey s = .error err) :
    err.class = .structural ∨ err = .fileTooSmall s.size ∨ err = .fileTooLarge s.size := by
  simp only [survey, bind_eq_error_iff] at h
  obtain h | ⟨l, hl, h⟩ := h
  · exact locate_error h
  obtain h | ⟨headers, hd, h⟩ := h
  · exact .inl (Headers.decode_error (locate_eq_ok_iff.mp hl).2.2.2.2.1 h)
  obtain h | ⟨directory, -, h⟩ := h
  · rw [Stream.part_of_le (directory_le hl hd)] at h
    cases h
  obtain h | ⟨listing, -, h⟩ := h
  · exact .inl (Listing.parseFrom_error h)
  · cases h

/-- What is known once an archive has been surveyed. -/
structure Surveyed (s : Stream) (headers : Headers) (record : Trailer) (listing : Listing) :
    Prop where
  listed : listing.Sound record.directorySize.toNat
  readable : headers.Readable
  commentShort : headers.comment.length < 2 ^ 16
  inside : record.directoryOffset.toNat + record.directorySize.toNat + 22 + headers.comment.length ≤
    s.size
  small : s.size ≤ maxArchiveSize

theorem surveyed_of_ok (h : survey s = .ok (headers, record, listing)) :
    Surveyed s headers record listing := by
  obtain ⟨l, hl, hd, rfl, hlist⟩ := survey_eq_ok_iff.mp h
  have hdir := directory_le hl hd
  obtain ⟨hsmall, hat, -, -, hc, -⟩ := locate_eq_ok_iff.mp hl
  obtain ⟨hh, -, hend⟩ := (Headers.decode_eq_ok_iff hc).mp hd
  have hcomment := Headers.comment_of_ofComment hh
  have hlen : headers.comment.length = l.record.commentLength.toNat := by
    rw [hcomment, Stream.length_field hc.le]
  have hsize := Stream.size_slice hdir
  have hmax : maxArchiveSize = 2 ^ 31 := rfl
  have hfixed : Trailer.fixedSize = 22 := rfl
  have hreadable : headers.Readable := by
    refine ⟨.ofDisk l.record.disk, Encryption.ofDisk_ne _, ?_⟩
    rw [hcomment]
    exact hh
  refine ⟨?_, hreadable, ?_, ?_, hsmall⟩
  · rw [← hsize]
    exact Listing.parse_sound (by omega) hlist
  · rw [hlen]
    exact l.record.commentLength.toNat_lt
  · unfold Trailer.directoryEnd at hend
    omega

/-! ## What holds of an index -/

/-- The size of the directory that describes the entries. -/
def recordsSize (i : Index) : Nat :=
  (i.tree.toList.map fun x => 46 + (i.tree.nameOf x.2).length).sum

/-- Whether an index fits a stream: its tree is well formed, its entries are sound and have the
slots that follow from their headers, its headers are those that its comment holds, and the
directory that describes it has room where the directory of the stream is. -/
structure Coherent (s : Stream) (i : Index) : Prop where
  tree : i.tree.WellFormed
  entries : ∀ p e, (p, e) ∈ i.tree.toList → e.Sound i.locator s i.tree.names
  slots : ∀ p e, (p, e) ∈ i.tree.toList → e.slotEnd = Tree.slotOf i.directoryOffset i.tree.toList p
  readable : i.headers.Readable
  commentShort : i.headers.comment.length < 2 ^ 16
  records : i.recordsSize ≤ i.directorySize.toNat
  inside : i.directoryOffset.toNat + i.directorySize.toNat ≤ s.size
  small : i.directoryOffset.toNat + i.directorySize.toNat + 22 + i.headers.comment.length ≤
    maxArchiveSize

theorem Coherent.directoryOffset_le (h : i.Coherent s) : i.directoryOffset.toNat ≤ s.size :=
  le_trans (Nat.le_add_right _ _) h.inside

/-! ## The index that is built -/

theorem build_eq_ok_iff : build options codec s = .ok i ↔ ∃ headers record listing es,
    survey s = .ok (headers, record, listing) ∧
      List.Forall₂ (fun f e => accept ⟨options.init, headers.encryption, record.directoryOffset⟩
        codec s listing.names f = .ok e) listing.files.toList es ∧
      i = {
        tree := ((Tree.ofNames listing.names).insertAll es).refreshSlots record.directoryOffset
        headers
        directoryOffset := record.directoryOffset
        directorySize := record.directorySize
        flags := { readOnly := options.readOnly, dontCompact := options.dontCompact } } := by
  simp only [build, bind_eq_ok_iff]
  constructor
  · rintro ⟨⟨headers, record, listing⟩, hs, t, ht, ⟨⟩⟩
    obtain ⟨es, hes, rfl⟩ := acceptAll_eq_ok_iff.mp ht
    exact ⟨headers, record, listing, es, hs, hes, rfl⟩
  · rintro ⟨headers, record, listing, es, hs, hes, rfl⟩
    exact ⟨(headers, record, listing), hs, _, acceptAll_eq_ok_iff.mpr ⟨es, hes, rfl⟩, rfl⟩

theorem accepted_sound {a : Policy} {names : NamePool} {files : List ListedFile} {es : List Entry}
    (hfiles : ∀ f ∈ files, f.Sound names)
    (hes : List.Forall₂ (fun f e => accept a codec s names f = .ok e) files es) :
    (∀ e ∈ es, e.Sound a.locator s names) ∧
      es.map (fun e => 46 + (names.get e.name).length) = files.map fun f => f.recordSize names := by
  induction hes with
  | nil => exact ⟨nofun, rfl⟩
  | cons he _ ih =>
    obtain ⟨hf, hfs⟩ := List.forall_mem_cons.mp hfiles
    obtain ⟨hsound, heq⟩ := place_sound hf (accept_ok he)
    obtain ⟨hrest, hsizes⟩ := ih hfs
    refine ⟨List.forall_mem_cons.mpr ⟨hsound, hrest⟩, ?_⟩
    rw [List.map_cons, List.map_cons, hsizes, heq]
    rfl

theorem wellFormed_insertAll {l : Locator} {names : NamePool} {es : List Entry}
    (hnames : names.size < 2 ^ 32) (hes : ∀ e ∈ es, e.Sound l s names) :
    (∀ e ∈ es, Tree.Puttable (Tree.ofNames names).names e) ∧
      ((Tree.ofNames names).insertAll es).WellFormed := by
  have hput : ∀ e ∈ es, Tree.Puttable (Tree.ofNames names).names e := fun e he =>
    ⟨(hes e he).held, (hes e he).segments_ne_nil⟩
  exact ⟨hput, (Tree.wellFormed_ofNames hnames).insertAll hput⟩

theorem mem_accepted {l : Locator} {names : NamePool} {es : List Entry} {stop : UInt32} {p : Path}
    {e : Entry} (hnames : names.size < 2 ^ 32) (hes : ∀ e ∈ es, e.Sound l s names)
    (he : (p, e) ∈ (((Tree.ofNames names).insertAll es).refreshSlots stop).toList) :
    ∃ e₀ ∈ es, e = { e₀ with slotEnd := e.slotEnd } := by
  obtain ⟨hput, hwf⟩ := wellFormed_insertAll hnames hes
  rw [Tree.toList_refreshSlots hwf] at he
  obtain ⟨x, hx, ⟨⟩⟩ := List.mem_map.mp he
  rcases Tree.mem_insertAll (Tree.wellFormed_ofNames hnames) hput hx with hx | hx
  · exact ⟨x.2, hx, rfl⟩
  · cases hx

theorem accepted_wellFormed {a : Policy} {es : List Entry}
    (hs : survey s = .ok (headers, record, listing))
    (hes : List.Forall₂ (fun f e => accept a codec s listing.names f = .ok e)
      listing.files.toList es) :
    listing.names.size < 2 ^ 32 ∧ (∀ e ∈ es, e.Sound a.locator s listing.names) ∧
      ((Tree.ofNames listing.names).insertAll es).WellFormed := by
  have hlisted := (surveyed_of_ok hs).listed
  have hnames : listing.names.size < 2 ^ 32 :=
    lt_of_le_of_lt hlisted.names record.directorySize.toNat_lt
  have hsound := (accepted_sound hlisted.files hes).1
  exact ⟨hnames, hsound, (wellFormed_insertAll hnames hsound).2⟩

/-- **Every index that is built fits its stream.** -/
theorem build_coherent (h : build options codec s = .ok i) : i.Coherent s := by
  obtain ⟨headers, record, listing, es, hs, hes, rfl⟩ := build_eq_ok_iff.mp h
  obtain ⟨hlisted, hreadable, hshort, hinside, hsmall⟩ := surveyed_of_ok hs
  obtain ⟨hnames, hsound, hwf⟩ := accepted_wellFormed hs hes
  have hsizes := (accepted_sound hlisted.files hes).2
  have hput := (wellFormed_insertAll hnames hsound).1
  have hempty := Tree.wellFormed_ofNames hnames
  have hkept : (((Tree.ofNames listing.names).insertAll es).refreshSlots
      record.directoryOffset).names = listing.names :=
    (Tree.names_refreshSlots hwf _).trans (Tree.names_insertAll _ _)
  have hlist := Tree.toList_refreshSlots hwf record.directoryOffset
  have hroom : record.directoryOffset.toNat + record.directorySize.toNat ≤ s.size := by omega
  have htotal := hinside.trans hsmall
  refine ⟨hwf.refreshSlots _, fun p e he => ?_, fun p e he => ?_, hreadable, hshort, ?_, hroom,
    htotal⟩
  · obtain ⟨e₀, h₀, heq⟩ := mem_accepted hnames hsound he
    rw [hkept, heq]
    exact (hsound _ h₀).slot _
  · exact Tree.slotEnd_refreshSlots hwf.arranged he
  · refine le_trans ?_ hlisted.records
    rw [← hsizes]
    have hsum := Tree.sum_insertAll_le hempty hput fun e => 46 + (listing.names.get e.name).length
    rw [recordsSize, hlist, List.map_map]
    refine le_trans (le_of_eq ?_) (hsum.trans (le_of_eq (Nat.zero_add _)))
    refine congrArg List.sum (List.map_congr_left fun x _ => ?_)
    rw [Function.comp_apply, Tree.nameOf, hkept]

/-- **Where the entries of an index come from**: each is the entry of a file that was accepted, with
its slot. -/
theorem mem_of_build {p : Path} {e : Entry} (h : build options codec s = .ok i)
    (he : (p, e) ∈ i.tree.toList) : ∃ f e₀,
      accept ⟨options.init, i.locator⟩ codec s i.tree.names f = .ok e₀ ∧
        e = { e₀ with slotEnd := e.slotEnd } := by
  obtain ⟨headers, record, listing, es, hs, hes, rfl⟩ := build_eq_ok_iff.mp h
  obtain ⟨hnames, hsound, hwf⟩ := accepted_wellFormed hs hes
  obtain ⟨e₀, h₀, heq⟩ := mem_accepted hnames hsound he
  obtain ⟨k, hk, rfl⟩ := List.mem_iff_getElem.mp h₀
  have hk' : k < listing.files.toList.length := hes.length_eq ▸ hk
  refine ⟨listing.files.toList[k], es[k], ?_, heq⟩
  show accept _ codec s (Tree.names (Tree.refreshSlots _ _)) _ = _
  rw [Tree.names_refreshSlots hwf, Tree.names_insertAll]
  exact (List.forall₂_iff_get.mp hes).2 k hk' hk

/-- What is asked of all entries alike, whatever their slots, is known before the slots are set. -/
theorem build_of_map {α : Type} (options : Options) (codec : Codec)
    (key : NamePool → Path × Entry → α) {keys : List α}
    (hs : survey s = .ok (headers, record, listing))
    (hslot : ∀ names p e slot, key names (p, { e with slotEnd := slot }) = key names (p, e))
    (hrun : ((acceptAll ⟨options.init, headers.encryption, record.directoryOffset⟩ codec s
      listing.files.toList (.ofNames listing.names)).map fun t =>
        t.toList.map (key t.names)).toOption = some keys) :
    ∃ i, build options codec s = .ok i ∧ i.headers = headers ∧
      i.directoryOffset = record.directoryOffset ∧ i.tree.toList.map (key i.tree.names) = keys := by
  obtain ⟨t, ht, rfl⟩ := map_eq_ok_iff.mp (toOption_eq_some_iff.mp hrun)
  obtain ⟨es, hes, rfl⟩ := acceptAll_eq_ok_iff.mp ht
  obtain ⟨-, -, hwf⟩ := accepted_wellFormed hs hes
  refine ⟨_, build_eq_ok_iff.mpr ⟨headers, record, listing, es, hs, hes, rfl⟩, rfl, rfl, ?_⟩
  show (Tree.refreshSlots _ _).toList.map (key (Tree.refreshSlots _ _).names) = _
  rw [Tree.toList_refreshSlots hwf, Tree.names_refreshSlots hwf, List.map_map]
  exact List.map_congr_left fun x _ => hslot _ _ _ _

/-- **How building fails**: the file has an unsupported size, or is malformed, or contradicts
itself, or, if payloads are to be validated, one of them is broken. -/
theorem build_failure (h : build options codec s = .error err) :
    err.class = .structural ∨ err.class = .crossValidation ∨ err = .fileTooSmall s.size ∨
      err = .fileTooLarge s.size ∨ options.init = .validate ∧ err.class = .diagnostic := by
  simp only [build, bind_eq_error_iff] at h
  obtain h | ⟨⟨headers, record, listing⟩, hs, h⟩ := h
  · rcases survey_error h with h | h | h
    · exact .inl h
    · exact .inr (.inr (.inl h))
    · exact .inr (.inr (.inr (.inl h)))
  obtain ⟨hlisted, -, -, hinside, -⟩ := surveyed_of_ok hs
  obtain h | ⟨t, -, h⟩ := h
  · obtain ⟨f, hf, h⟩ := acceptAll_error h
    have hsize : f.recordSize listing.names ≤ record.directorySize.toNat :=
      (List.le_sum_of_mem (List.mem_map_of_mem hf)).trans hlisted.records
    have hroom : record.directoryOffset.toNat + 46 + (listing.names.get f.name).length ≤
        s.size := by
      unfold ListedFile.recordSize at hsize
      omega
    rcases accept_error hroom h with h | h
    · exact .inr (.inl h)
    · exact .inr (.inr (.inr (.inr h)))
  · cases h

end PakIndex.Index
