import PakIndex.Archive
import PakIndex.Proofs.Index.Flush
import PakIndex.Proofs.Tree.Order

/-!
# Reading a rewritten directory

* `Index.rewritten`: an entry as it is read back from a rewritten directory.
* `Index.contents`, `Index.rewrittenContents`: what an index lists, before and after that.
* `Index.Coherent.accept_rewritten`: the entries of a rewritten directory are accepted.
* **`Index.Coherent.build_rewritten`**: the index that is built of a rewritten archive lists what
  was written.
* `Index.open_coherent`: the index that opening yields fits its file.
-/

namespace PakIndex.Index

variable {i : Index} {s : Stream} {e : Entry} {p : Path}

/-! ## The entries that are read back -/

/-- An entry as it is read back from a rewritten directory. The time is not written, and a payload
is located at once in an encrypted archive only. -/
def rewritten (i : Index) (e : Entry) : Entry :=
  { e with
    dataOffset :=
      if i.headers.encryption.isEncrypted ∧ e.compressedSize ≠ 0 then e.dataOffset else none
    mtime := none }

/-- **The entries of a rewritten directory are accepted** as they were written. -/
theorem Coherent.accept_rewritten (h : i.Coherent s) (he : (p, e) ∈ i.tree.toList)
    {names : NamePool} {f : ListedFile} (hrecord : f.record = e.toRecord.named (i.tree.nameOf e))
    (hmtime : f.mtime = none) (hname : names.get f.name = normalizeName (i.tree.nameOf e))
    (codec : Codec) (s' : Stream) :
    accept ⟨.basic, i.headers.encryption, i.directoryOffset⟩ codec s' names f =
      .ok { i.rewritten e with name := f.name, slotEnd := 0 } := by
  have hs := h.entries p e he
  have hname : names.get f.name = i.tree.nameOf e := hname.trans hs.normal
  have hmethod : (Entry.ofListed f).method = e.method := congrArg DirectoryRecord.method hrecord
  have hdescriptor : (Entry.ofListed f).descriptor = e.descriptor :=
    congrArg DirectoryRecord.descriptor hrecord
  have hoffset : (Entry.ofListed f).headerOffset = e.headerOffset :=
    congrArg DirectoryRecord.headerOffset hrecord
  have hlisted : Entry.ofListed f = { i.rewritten e with
      name := f.name, slotEnd := 0, dataOffset := none } := by
    rw [Entry.ofListed, hrecord, hmtime]
    rfl
  have hsize : (Entry.ofListed f).compressedSize = e.compressedSize := by
    rw [Entry.compressedSize, hdescriptor, Entry.compressedSize]
  have heager : Policy.isEager ⟨.basic, i.headers.encryption, i.directoryOffset⟩ =
      i.headers.encryption.isEncrypted := Bool.or_false _
  have hlisted' : { i.rewritten e with name := f.name, slotEnd := 0 } = { Entry.ofListed f with
      dataOffset := (i.rewritten e).dataOffset } := by rw [hlisted]
  rw [hlisted']
  refine accept_of_locate (show Thoroughness.basic ≠ .validate by decide) ?_ ?_ ?_
  · rw [Locator.check_eq_ok_iff, hoffset, hmethod, hdescriptor]
    exact Locator.check_eq_ok_iff.mp hs.checked
  · rw [heager, hsize]
    intro henc hne
    obtain ⟨d, hd⟩ := Option.isSome_iff_exists.mp (hs.eager henc hne)
    refine ⟨d, (if_pos ⟨henc, hne⟩).trans hd, ?_⟩
    rw [hname, Locator.locate_congr hoffset hmethod hdescriptor,
      Locator.locate_of_isEncrypted henc s' s]
    exact hs.located d hd
  · rw [heager, hsize]
    exact fun hlazy => if_neg hlazy

/-- Whether an entry is read back from what was written about the entry at a path: its name has the
same bytes in another pool, and its slot is not set yet. -/
def Reread (i : Index) (names : NamePool) (x : Path × Entry) (e : Entry) : Prop :=
  names.Holds e.name ∧ names.get e.name = i.tree.nameOf x.2 ∧
    e = { i.rewritten x.2 with name := e.name, slotEnd := 0 }

theorem Coherent.exists_reread (h : i.Coherent s) (codec : Codec) (s' : Stream) {names : NamePool}
    {l : List (Path × Entry)} {files : List ListedFile} (hl : ∀ x ∈ l, x ∈ i.tree.toList)
    (hfiles : List.Forall₂ (fun x f => f.record = x.2.toRecord.named (i.tree.nameOf x.2) ∧
      f.mtime = none ∧ names.Holds f.name ∧ names.get f.name = normalizeName (i.tree.nameOf x.2))
      l files) :
    ∃ es, List.Forall₂ (fun f e => accept ⟨.basic, i.headers.encryption, i.directoryOffset⟩ codec s'
        names f = .ok e) files es ∧ List.Forall₂ (i.Reread names) l es := by
  refine exists_accepted hfiles ?_
  rintro x hx f ⟨hrecord, hmtime, hheld, hget⟩
  refine ⟨_, h.accept_rewritten (hl x hx) hrecord hmtime hget codec s', hheld, ?_, rfl⟩
  exact hget.trans (h.entries _ _ (hl x hx)).normal

/-! ## The tree that is read back -/

/-- What an index lists: every path with the name and the entry there, apart from where the name is
kept. -/
def contents (i : Index) : List (Path × Bytes × Entry) :=
  i.tree.toList.map fun x => (x.1, i.tree.nameOf x.2, { x.2 with name := default })

/-- What an index lists once its directory has been rewritten and read back. -/
def rewrittenContents (i : Index) : List (Path × Bytes × Entry) :=
  i.tree.toList.map fun x => (x.1, i.tree.nameOf x.2, { i.rewritten x.2 with name := default })

variable {names : NamePool} {es : List Entry}

theorem map_reread (h : i.Coherent s) {l : List (Path × Entry)} (hl : ∀ x ∈ l, x ∈ i.tree.toList)
    (hre : List.Forall₂ (i.Reread names) l es) :
    es.map (fun e => (segments (names.get e.name), names.get e.name,
        { e with name := default, slotEnd := 0 })) =
      l.map fun x => (x.1, i.tree.nameOf x.2,
        { i.rewritten x.2 with name := default, slotEnd := 0 }) := by
  induction hre with
  | nil => rfl
  | @cons x e l es hx _ ih =>
    obtain ⟨hmem, hl⟩ := List.forall_mem_cons.mp hl
    obtain ⟨-, hname, he⟩ := hx
    have hpath : x.1 = segments (i.tree.nameOf x.2) := h.tree.path_of_mem hmem
    rw [List.map_cons, List.map_cons, ih hl, hname, ← hpath, he]

/-- **The tree of the entries that are read back lists what was written**, in the same order. -/
theorem Coherent.toList_reread (h : i.Coherent s) (hnames : names.size < 2 ^ 32)
    (hre : List.Forall₂ (i.Reread names) i.tree.byHeader es) :
    ((Tree.ofNames names).insertAll es).WellFormed ∧
    ((Tree.ofNames names).insertAll es).toList.map (fun x => (x.1, names.get x.2.name,
        { x.2 with name := default, slotEnd := 0 })) =
      i.tree.toList.map fun x => (x.1, i.tree.nameOf x.2,
        { i.rewritten x.2 with name := default, slotEnd := 0 }) := by
  have hmem : ∀ x ∈ i.tree.byHeader, x ∈ i.tree.toList := fun x hx => mem_byHeader.mp hx
  have hempty := Tree.wellFormed_ofNames hnames
  have hput : ∀ e ∈ es, Tree.Puttable (Tree.ofNames names).names e := by
    intro e he
    obtain ⟨k, hk, rfl⟩ := List.mem_iff_getElem.mp he
    have hk' : k < i.tree.byHeader.length := by
      rw [hre.length_eq]
      exact hk
    obtain ⟨hheld, hget, -⟩ := (List.forall₂_iff_get.mp hre).2 k hk' hk
    refine ⟨hheld, ?_⟩
    show segments (names.get (es.get ⟨k, hk⟩).name) ≠ []
    rw [hget]
    exact (h.entries _ _ (hmem _ (List.get_mem _ _))).segments_ne_nil
  have hwf := hempty.insertAll hput
  have hmap := map_reread h hmem hre
  have hnd : (es.map fun e => segments ((Tree.ofNames names).nameOf e)).Nodup := by
    have hpaths := congrArg (List.map Prod.fst) hmap
    rw [List.map_map, List.map_map] at hpaths
    refine (congrArg List.Nodup hpaths).mpr ?_
    exact ((Tree.sortByHeader_perm i.tree.toList).map Prod.fst).nodup_iff.mpr h.tree.nodup_paths
  -- Both lists are in the order of listings, which determines them up to their elements.
  refine ⟨hwf, @List.Perm.eq_of_pairwise _ (fun x y => Path.Before x.1 y.1) _ _
    (fun a b _ _ hab hba => (hab.asymm hba).elim) ?_ ?_ ?_⟩
  · rw [List.pairwise_map]
    exact Node.toList_pairwise hwf.root
  · rw [List.pairwise_map]
    exact Node.toList_pairwise h.tree.root
  · have hperm := (Tree.insertAll_perm hempty rfl hput hnd).map fun x =>
      (x.1, names.get x.2.name, { x.2 with name := default, slotEnd := 0 })
    rw [List.map_map] at hperm
    refine hperm.trans ?_
    refine List.Perm.trans (List.Perm.of_eq hmap) ?_
    exact (Tree.sortByHeader_perm i.tree.toList).map _

theorem contents_refreshSlots {t : Tree} (ht : t.WellFormed) (stop : UInt32)
    (h : t.toList.map (fun x => (x.1, t.nameOf x.2, { x.2 with name := default, slotEnd := 0 })) =
      i.tree.toList.map fun x => (x.1, i.tree.nameOf x.2,
        { i.rewritten x.2 with name := default, slotEnd := 0 }))
    (hslots : ∀ p e, (p, e) ∈ i.tree.toList → e.slotEnd = Tree.slotOf stop i.tree.toList p) :
    (t.refreshSlots stop).toList.map (fun x =>
      (x.1, (t.refreshSlots stop).nameOf x.2, { x.2 with name := default })) =
        i.rewrittenContents := by
  have hkeys : t.toList.map (fun x => (x.1, x.2.headerOffset)) =
      i.tree.toList.map fun x => (x.1, x.2.headerOffset) := by
    have hmap := congrArg (List.map fun y : Path × Bytes × Entry => (y.1, y.2.2.headerOffset)) h
    rw [List.map_map, List.map_map] at hmap
    exact hmap
  have hset := congrArg (List.map fun y : Path × Bytes × Entry =>
    (y.1, y.2.1, { y.2.2 with slotEnd := Tree.slotOf stop i.tree.toList y.1 })) h
  rw [List.map_map, List.map_map] at hset
  rw [Tree.toList_refreshSlots ht, List.map_map, rewrittenContents]
  refine Eq.trans (List.map_congr_left fun x _ => ?_)
    (hset.trans (List.map_congr_left fun x hx => ?_))
  · rw [Function.comp_apply, Function.comp_apply, Tree.nameOf, Tree.names_refreshSlots ht,
      Tree.slotOf_congr stop hkeys]
    rfl
  · rw [Function.comp_apply, ← hslots _ _ hx]
    rfl

/-- **The index of a rewritten archive** is the one that was written. -/
theorem Coherent.build_rewritten (h : i.Coherent s) {s' : Stream} {pre : Bytes} {t : Trailer}
    (w : Written s' pre i.rows t i.headers.comment)
    (hh : Headers.ofComment (.ofDisk t.disk) i.headers.comment = .ok i.headers)
    (hoffset : t.directoryOffset = i.directoryOffset) {options : Options}
    (hinit : options.init = .basic) (codec : Codec) :
    ∃ k, build options codec s' = .ok k ∧ k.directoryOffset = i.directoryOffset ∧
      k.directorySize = t.directorySize ∧ k.headers = i.headers ∧
      k.contents = i.rewrittenContents := by
  have hsize : (i.rows.map fun row => row.2.length).sum < 2 ^ 32 := by
    have h₁ := Listing.sum_names_le i.rows
    have h₂ := h.records
    rw [← directory_eq, length_directory] at h₁
    have h₃ := i.directorySize.toNat_lt
    omega
  obtain ⟨hnames, hfiles⟩ := Listing.ofRows_spec i.rows hsize
  obtain ⟨es, hacc, hre⟩ := h.exists_reread codec s' (fun x hx => mem_byHeader.mp hx)
    (List.forall₂_map_left_iff.mp hfiles)
  obtain ⟨hwf, hlist⟩ := h.toList_reread (by rw [hnames]; exact hsize) hre
  have hkept := Tree.names_insertAll (Tree.ofNames (Listing.ofRows i.rows).names) es
  refine ⟨_, build_eq_ok_iff.mpr ⟨_, _, _, es, survey_written w hh, ?_, rfl⟩, hoffset, rfl, rfl, ?_⟩
  · rw [hinit, hoffset]
    exact hacc
  · rw [hoffset]
    refine contents_refreshSlots hwf _ ?_ h.slots
    rw [← hlist]
    refine List.map_congr_left fun x _ => ?_
    rw [Tree.nameOf, hkept]
    rfl

/-! ## Opening -/

theorem Coherent.memorize (h : i.Coherent s) (path : Option String) :
    Coherent s { i with path := path } :=
  ⟨h.tree, h.entries, h.slots, h.readable, h.commentShort, h.records, h.inside, h.small⟩

theorem create_coherent (options : Options) : (create options).Coherent (.ofByteArray .empty) := by
  refine ⟨Tree.wellFormed_ofNames (by decide), nofun, nofun, ⟨.none, by decide, ?_⟩, ?_, le_rfl,
    Nat.zero_le _, ?_⟩
  · exact Headers.ofComment_of_short (show 0 < 8 by decide)
  · exact Nat.two_pow_pos 16
  · exact Nat.le_of_ble_eq_true rfl

theorem opening_existing {options : Options} {place : Place} {content : ByteArray}
    (h : place.opening options = .existing content) : place = .file content := by
  unfold Place.opening at h
  cases place with
  | file content' =>
    by_cases hro : options.readOnly = true
    · rw [if_pos hro] at h
      cases h
      rfl
    · rw [if_neg hro] at h
      simp only [Place.writeOpening] at h
      split_ifs at h
      cases h
      rfl
  | noFolder => split_ifs at h <;> cases h
  | absent => split_ifs at h <;> cases h
  | folder => split_ifs at h <;> cases h

theorem open_coherent {options : Options} {codec : Codec} {path : String} {place : Place}
    {content : ByteArray} (h : place.open options codec path = (.ok i, .file content)) :
    i.Coherent (.ofByteArray content) := by
  obtain ⟨hi, hplace⟩ := Prod.mk.inj h
  unfold Place.indexAt at hi
  unfold Place.afterOpening at hplace
  cases ho : place.opening options with
  | refused e =>
    rw [ho] at hi
    cases hi
  | existing content' =>
    rw [ho] at hi hplace
    simp only at hplace
    cases (opening_existing ho).symm.trans hplace
    obtain ⟨k, hk, ⟨⟩⟩ := bind_eq_ok_iff.mp hi
    exact (build_coherent hk).memorize _
  | fresh =>
    rw [ho] at hi hplace
    cases hi
    cases hplace
    exact (create_coherent options).memorize _

end PakIndex.Index
