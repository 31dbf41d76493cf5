import PakIndex.Proofs.Index.Use
import PakIndex.Proofs.Tree.Entrywise

/-!
# Levels of thoroughness

* `Index.Meets`: what a level asks of a listed file; `Index.accept_isOk_iff`,
  `Index.build_isOk_iff`: nothing else is asked.
* `Index.build_unlocated`: the tree that is built, apart from the places of payloads, follows from
  the listing.
* **`Index.build_levels`**: the levels refine one another.
-/

namespace PakIndex.Index

variable {a a' : Policy} {l : Locator} {options : Options} {codec : Codec} {s : Stream}
  {names : NamePool} {f : ListedFile} {e : Entry} {i : Index}

/-! ## What is asked of a listed file -/

/-- Whether the payload of a listed file, if it is not empty, can be located. -/
def Locatable (l : Locator) (s : Stream) (names : NamePool) (f : ListedFile) : Prop :=
  (Entry.ofListed f).compressedSize ≠ 0 →
    ∃ d, l.locate s (Entry.ofListed f) (names.get f.name) = .ok d

/-- Whether the bytes stored for a listed file, if it is not empty, are decoded and verified
wherever its payload is located. -/
def Decodable (l : Locator) (codec : Codec) (s : Stream) (names : NamePool) (f : ListedFile) :
    Prop :=
  (Entry.ofListed f).compressedSize ≠ 0 →
    ∀ d, l.locate s (Entry.ofListed f) (names.get f.name) = .ok d →
      ∃ content, (Entry.ofListed f).decode codec
        (s.toList.field d.toNat (Entry.ofListed f).compressedSize) = .ok content

/-- Whether a listed file meets what a policy asks for. -/
structure Meets (a : Policy) (codec : Codec) (s : Stream) (names : NamePool) (f : ListedFile) :
    Prop where
  checked : a.locator.check (Entry.ofListed f) (names.get f.name) = .ok ()
  located : a.isEager = true → Locatable a.locator s names f
  decoded : a.init = .validate → Decodable a.locator codec s names f

theorem validate_eq_ok_iff {d : UInt32} (hend : d.toNat + e.compressedSize ≤ s.size) :
    { e with dataOffset := some d }.validate codec s = .ok () ↔
      ∃ content, e.decode codec (s.toList.field d.toNat e.compressedSize) = .ok content := by
  have hstored : { e with dataOffset := some d }.stored s = _ := Entry.stored_of_le rfl hend
  have hdecode : { e with dataOffset := some d }.decode codec = e.decode codec := rfl
  rw [Entry.validate, hstored, hdecode]
  show (discard (e.decode codec (s.toList.field d.toNat e.compressedSize)) : Except Error Unit) =
    .ok () ↔ _
  cases e.decode codec (s.toList.field d.toNat e.compressedSize) <;>
    simp [discard, Functor.discard, Functor.mapConst, Except.map]

/-- **A listed file is accepted** if it meets what is asked for, and only then. -/
theorem accept_isOk_iff (hroom : a.locator.directoryOffset.toNat ≤ s.size) :
    (∃ e, accept a codec s names f = .ok e) ↔ Meets a codec s names f := by
  simp only [accept_eq_ok_iff]
  constructor
  · rintro ⟨e, he, hv⟩
    obtain ⟨hc, ⟨d, -, hne, hd, rfl⟩ | ⟨hlazy, rfl⟩⟩ := place_ok he
    · refine ⟨hc, fun _ _ => ⟨d, hd⟩, fun hinit _ d' hd' => ?_⟩
      cases hd.symm.trans hd'
      refine (validate_eq_ok_iff ((Locator.locate_bound hd).trans hroom)).mp (hv ?_)
      rw [validates, hinit]
      exact bne_iff_ne.mpr hne
    · refine ⟨hc, fun heager hne => absurd ⟨heager, hne⟩ hlazy, fun hinit hne => ?_⟩
      refine absurd ⟨?_, hne⟩ hlazy
      rw [Policy.isEager, hinit]
      exact Bool.or_true _
  · rintro ⟨hc, hlocated, hdecoded⟩
    by_cases he : a.isEager = true ∧ (Entry.ofListed f).compressedSize ≠ 0
    · obtain ⟨d, hd⟩ := hlocated he.1 he.2
      refine ⟨_, place_of_eager hc he hd, fun hv => ?_⟩
      rw [validates, Bool.and_eq_true, beq_iff_eq] at hv
      exact (validate_eq_ok_iff ((Locator.locate_bound hd).trans hroom)).mpr
        (hdecoded hv.1 he.2 d hd)
    · refine ⟨_, place_of_lazy hc he, fun hv => absurd ⟨?_, ?_⟩ he⟩ <;>
        rw [validates, Bool.and_eq_true, beq_iff_eq] at hv
      · rw [Policy.isEager, hv.1]
        exact Bool.or_true _
      · exact bne_iff_ne.mp hv.2

theorem accept_unlocated (h : accept a codec s names f = .ok e) :
    e.unlocated = Entry.ofListed f := by
  obtain ⟨-, ⟨d, -, -, -, rfl⟩ | ⟨-, rfl⟩⟩ := place_ok (accept_ok h) <;> rfl

theorem acceptAll_congr (h : ∀ names f, accept a codec s names f = accept a' codec s names f)
    (files : List ListedFile) (t : Tree) :
    acceptAll a codec s files t = acceptAll a' codec s files t := by
  induction files generalizing t with
  | nil => rfl
  | cons f files ih =>
    rw [acceptAll, acceptAll, h]
    cases accept a' codec s t.names f with
    | error err => rfl
    | ok e => exact ih _

/-! ## What is asked of an archive -/

/-- **An archive has an index** if it can be surveyed and all its files meet what is asked for, and
only then. -/
theorem build_isOk_iff : (∃ i, build options codec s = .ok i) ↔
    ∃ headers record listing, survey s = .ok (headers, record, listing) ∧
      ∀ f ∈ listing.files.toList, Meets ⟨options.init, headers.encryption, record.directoryOffset⟩
        codec s listing.names f := by
  have hroom {headers record listing} (hs : survey s = .ok (headers, record, listing)) :
      record.directoryOffset.toNat ≤ s.size := by
    have := (surveyed_of_ok hs).inside
    omega
  constructor
  · rintro ⟨i, hi⟩
    obtain ⟨headers, record, listing, es, hs, hes, -⟩ := build_eq_ok_iff.mp hi
    refine ⟨headers, record, listing, hs, fun f hf => (accept_isOk_iff (hroom hs)).mp ?_⟩
    obtain ⟨k, hk, rfl⟩ := List.mem_iff_getElem.mp hf
    have hk' : k < es.length := hes.length_eq ▸ hk
    exact ⟨_, (List.forall₂_iff_get.mp hes).2 k hk hk'⟩
  · rintro ⟨headers, record, listing, hs, hfiles⟩
    have hself : List.Forall₂ Eq listing.files.toList listing.files.toList :=
      List.forall₂_refl _
    have haccepted : ∀ f ∈ listing.files.toList, ∀ f', f = f' → ∃ e,
        accept ⟨options.init, headers.encryption, record.directoryOffset⟩ codec s listing.names f' =
          .ok e ∧ True := by
      rintro f hf _ rfl
      obtain ⟨e, he⟩ := (accept_isOk_iff (hroom hs)).mpr (hfiles f hf)
      exact ⟨e, he, trivial⟩
    obtain ⟨es, hes, -⟩ := exists_accepted hself haccepted
    exact ⟨_, build_eq_ok_iff.mpr ⟨headers, record, listing, es, hs, hes, rfl⟩⟩

theorem build_isOk_iff_and (options options' : Options) (codec : Codec) (s : Stream)
    {P : Locator → NamePool → ListedFile → Prop}
    (h : ∀ l names f, Meets ⟨options.init, l⟩ codec s names f ↔
      Meets ⟨options'.init, l⟩ codec s names f ∧ P l names f) :
    (∃ i, build options codec s = .ok i) ↔ (∃ i, build options' codec s = .ok i) ∧
      ∀ headers record listing, survey s = .ok (headers, record, listing) →
        ∀ f ∈ listing.files.toList,
          P ⟨headers.encryption, record.directoryOffset⟩ listing.names f := by
  simp only [build_isOk_iff, h]
  constructor
  · rintro ⟨headers, record, listing, hs, hfiles⟩
    refine ⟨⟨headers, record, listing, hs, fun f hf => (hfiles f hf).1⟩, ?_⟩
    intro _ _ _ hs' f hf
    cases hs.symm.trans hs'
    exact (hfiles f hf).2
  · rintro ⟨⟨headers, record, listing, hs, hfiles⟩, hmore⟩
    exact ⟨headers, record, listing, hs, fun f hf => ⟨hfiles f hf, hmore _ _ _ hs f hf⟩⟩

/-- The tree of all listed files without the places of their payloads. -/
def listedTree (record : Trailer) (listing : Listing) : Tree :=
  ((Tree.ofNames listing.names).insertAll (listing.files.toList.map Entry.ofListed)).refreshSlots
    record.directoryOffset

/-- **What is built follows from the survey**, apart from the places of payloads. -/
theorem build_unlocated (h : build options codec s = .ok i) :
    ∃ record listing, survey s = .ok (i.headers, record, listing) ∧
      i.directoryOffset = record.directoryOffset ∧ i.directorySize = record.directorySize ∧
        i.tree.unlocated = listedTree record listing := by
  obtain ⟨headers, record, listing, es, hs, hes, rfl⟩ := build_eq_ok_iff.mp h
  refine ⟨record, listing, hs, rfl, rfl, ?_⟩
  have hlisted : es.map Entry.unlocated = listing.files.toList.map Entry.ofListed := by
    clear h hs
    generalize listing.files.toList = files at hes
    induction hes with
    | nil => rfl
    | cons he _ ih => simp only [List.map_cons, accept_unlocated he, ih]
  rw [Tree.unlocated, Tree.map_refreshSlots (f := Entry.unlocated) (fun _ => rfl) fun _ _ => rfl,
    Tree.map_insertAll (f := Entry.unlocated) fun _ => rfl, Tree.map_ofNames, hlisted, listedTree]

theorem build_agree {options' : Options} {codec' : Codec} {j : Index}
    (hi : build options codec s = .ok i) (hj : build options' codec' s = .ok j) :
    i.SameArchive j ∧ j.tree.unlocated = i.tree.unlocated := by
  obtain ⟨record, listing, hs, hoffset, hsize, htree⟩ := build_unlocated hi
  obtain ⟨record', listing', hs', hoffset', hsize', htree'⟩ := build_unlocated hj
  rw [hs, Except.ok.injEq, Prod.mk.injEq, Prod.mk.injEq] at hs'
  obtain ⟨hheaders, rfl, rfl⟩ := hs'
  exact ⟨⟨hheaders.symm, hoffset'.trans hoffset.symm, hsize'.trans hsize.symm⟩,
    htree'.trans htree.symm⟩

/-! ## The levels -/

theorem Meets.basic (h : Meets a codec s names f) : Meets ⟨.basic, a.locator⟩ codec s names f := by
  refine ⟨h.checked, fun heager => h.located ?_, nofun⟩
  have henc : a.locator.encryption.isEncrypted = true := by
    simpa [Policy.isEager, Thoroughness.atLeastFull] using heager
  rw [Policy.isEager, henc, Bool.true_or]

theorem build_basic_of_build (h : build options codec s = .ok i) {options' : Options}
    (hinit : options'.init = .basic) : ∃ k, build options' codec s = .ok k := by
  obtain ⟨headers, record, listing, hs, hfiles⟩ := build_isOk_iff.mp ⟨i, h⟩
  refine build_isOk_iff.mpr ⟨headers, record, listing, hs, fun f hf => ?_⟩
  rw [hinit]
  exact (hfiles f hf).basic

theorem meets_full_iff : Meets ⟨.full, l⟩ codec s names f ↔
    Meets ⟨.basic, l⟩ codec s names f ∧ Locatable l s names f := by
  constructor
  · intro h
    have hlocated := h.located (Bool.or_true _)
    exact ⟨⟨h.checked, fun _ => hlocated, nofun⟩, hlocated⟩
  · rintro ⟨h, hlocated⟩
    exact ⟨h.checked, fun _ => hlocated, nofun⟩

theorem meets_validate_iff : Meets ⟨.validate, l⟩ codec s names f ↔
    Meets ⟨.full, l⟩ codec s names f ∧ Decodable l codec s names f := by
  constructor
  · intro h
    exact ⟨⟨h.checked, fun _ => h.located (Bool.or_true _), nofun⟩, h.decoded rfl⟩
  · rintro ⟨h, hdecoded⟩
    exact ⟨h.checked, fun _ => h.located (Bool.or_true _), fun _ => hdecoded⟩

theorem accept_full_of_isEncrypted (codec : Codec) (s : Stream)
    (h : l.encryption.isEncrypted = true) (names : NamePool) (f : ListedFile) :
    accept ⟨.full, l⟩ codec s names f = accept ⟨.basic, l⟩ codec s names f := by
  -- The local headers of an encrypted archive are not looked at, whatever the level.
  rw [accept_eq_place (a := ⟨.full, l⟩) nofun, accept_eq_place (a := ⟨.basic, l⟩) nofun]
  simp only [place, Policy.isEager, h, Bool.true_or]

/-- **The levels of thoroughness refine one another.** What has an index at a level has one at every
level below, and all of them agree apart from the places of payloads. The level in the middle adds
that the payload of every listed file that is not empty can be located, whether or not another file
at its path comes later; it adds nothing to an encrypted archive. The highest level adds that what
is stored there is decoded. -/
theorem build_levels (options : Options) (codec : Codec) (s : Stream) :
    let level (t : Thoroughness) := build { options with init := t } codec s
    ((∃ i, level .validate = .ok i) → ∃ i, level .full = .ok i) ∧
    ((∃ i, level .full = .ok i) → ∃ i, level .basic = .ok i) ∧
    (∀ t t' i j, level t = .ok i → level t' = .ok j →
      i.SameArchive j ∧ j.tree.unlocated = i.tree.unlocated) ∧
    ((∃ i, level .full = .ok i) ↔ (∃ i, level .basic = .ok i) ∧
      ∀ headers record listing, survey s = .ok (headers, record, listing) →
        ∀ f ∈ listing.files.toList,
          Locatable ⟨headers.encryption, record.directoryOffset⟩ s listing.names f) ∧
    (∀ headers record listing, survey s = .ok (headers, record, listing) →
      headers.encryption.isEncrypted = true → level .full = level .basic) ∧
    ((∃ i, level .validate = .ok i) ↔ (∃ i, level .full = .ok i) ∧
      ∀ headers record listing, survey s = .ok (headers, record, listing) →
        ∀ f ∈ listing.files.toList,
          Decodable ⟨headers.encryption, record.directoryOffset⟩ codec s listing.names f) := by
  intro level
  have hfull := build_isOk_iff_and { options with init := .full } { options with init := .basic }
    codec s (P := fun l => Locatable l s) fun _ _ _ => meets_full_iff
  have hvalidate := build_isOk_iff_and { options with init := .validate }
    { options with init := .full } codec s (P := fun l => Decodable l codec s)
    fun _ _ _ => meets_validate_iff
  refine ⟨fun h => (hvalidate.mp h).1, fun h => (hfull.mp h).1,
    fun t t' i j hi hj => build_agree hi hj, hfull, ?_, hvalidate⟩
  intro headers record listing hs henc
  have haccept := acceptAll_congr (accept_full_of_isEncrypted codec s
    (l := ⟨headers.encryption, record.directoryOffset⟩) henc)
  simp only [level, build, hs, bind, Except.bind, haccept]

end PakIndex.Index
