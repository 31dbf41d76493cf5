import PakIndex.Proofs.Index.Answers

/-!
# What validation certifies

* `Entry.Intact`: whether the content of a file can be read.
* `Index.Coherent.readContent_isOk_iff`, `Index.Coherent.validateAll_eq_ok_iff`: intact files, and
  no others, are read and validated.
* **`Index.build_certified`**: an index that was built with validation reads every file that is not
  empty. Empty files are not looked at by then.
* `Index.build_certified_empty`: an empty file that is broken.
-/

namespace PakIndex

variable {l : Locator} {codec : Codec} {s : Stream} {e : Entry} {name : Bytes}

/-! ## Intact files -/

namespace Entry

/-- Whether the content of a file can be read: its payload is located, and what is stored there is
decoded and verified. -/
def Intact (l : Locator) (codec : Codec) (s : Stream) (name : Bytes) (e : Entry) : Prop :=
  ∃ content d, l.locate s e name = .ok d ∧
    e.decode codec (s.toList.field d.toNat e.compressedSize) = .ok content

theorem intact_unlocated : e.unlocated.Intact l codec s name ↔ e.Intact l codec s name := by
  have hlocate : l.locate s e.unlocated name = l.locate s e name :=
    Locator.locate_congr rfl rfl rfl
  rw [Intact, hlocate]
  rfl

theorem settled_validate_iff (hroom : l.directoryOffset.toNat ≤ s.size) :
    (e.settled l s name >>= validate codec s) = .ok () ↔ e.Intact l codec s name := by
  simp only [bind_eq_ok_iff, settled_eq_ok_iff]
  constructor
  · rintro ⟨_, ⟨d, hd, rfl⟩, hv⟩
    obtain ⟨content, hc⟩ :=
      (Index.validate_eq_ok_iff ((Locator.locate_bound hd).trans hroom)).mp hv
    exact ⟨content, d, hd, hc⟩
  · rintro ⟨content, d, hd, hc⟩
    exact ⟨_, ⟨d, hd, rfl⟩,
      (Index.validate_eq_ok_iff ((Locator.locate_bound hd).trans hroom)).mpr ⟨content, hc⟩⟩

end Entry

namespace Index

variable {i j : Index} {p : Path} {path : String} {options : Options}

theorem Coherent.readContent_eq_ok_iff (h : i.Coherent s) (hf : i.find? path = some e)
    {content : Bytes} : (i.readContent codec s path).1 = .ok content ↔
      ∃ d, i.locator.locate s e (i.tree.nameOf e) = .ok d ∧
        e.decode codec (s.toList.field d.toNat e.compressedSize) = .ok content := by
  cases hl : i.locator.locate s e (i.tree.nameOf e) with
  | error err =>
    have hresolved : i.tree.resolved i.locator s path = .error err := by
      have hf' : i.tree.find? path = some e := hf
      simp only [Tree.resolved, hf', Entry.settled, hl]
      rfl
    rw [h.readContent_fst, hresolved]
    constructor
    · rintro ⟨⟩
    · rintro ⟨d, ⟨⟩, -⟩
  | ok d =>
    rw [(read_of_locate h hf hl codec).2.2]
    constructor
    · intro hc
      exact ⟨d, rfl, hc⟩
    · rintro ⟨d', ⟨⟩, hc⟩
      exact hc

/-- **Intact files are read**, and no others. -/
theorem Coherent.readContent_isOk_iff (h : i.Coherent s) (hf : i.find? path = some e) :
    (∃ content, (i.readContent codec s path).1 = .ok content) ↔
      e.Intact i.locator codec s (i.tree.nameOf e) :=
  exists_congr fun _ => h.readContent_eq_ok_iff hf

/-- **All files are validated** if all of them are intact, and only then. -/
theorem Coherent.validateAll_eq_ok_iff (h : i.Coherent s) (codec : Codec) :
    (i.validateAll codec s).1 = .ok () ↔
      ∀ p e, (p, e) ∈ i.tree.toList → e.Intact i.locator codec s (i.tree.nameOf e) := by
  have hroom : i.locator.directoryOffset.toNat ≤ s.size := h.directoryOffset_le
  rw [h.validateAll_fst, Tree.validated, forM_eq_ok_iff, Tree.entries, List.forall_mem_map,
    Prod.forall]
  simp only [Entry.settled_validate_iff hroom]

/-! ## Building with validation -/

/-- **Files that were validated are intact**: the build has decoded them, unless they are empty. -/
theorem build_intact (h : build options codec s = .ok i) (hinit : options.init = .validate)
    (he : (p, e) ∈ i.tree.toList) (hne : e.compressedSize ≠ 0) :
    e.Intact i.locator codec s (i.tree.nameOf e) := by
  have hroom := (build_coherent h).directoryOffset_le
  obtain ⟨f, e₀, hacc, heq⟩ := mem_of_build h he
  obtain ⟨hplace, hvalid⟩ := accept_eq_ok_iff.mp hacc
  have hne₀ : e₀.compressedSize ≠ 0 := by
    rw [heq] at hne
    exact hne
  have hvalidates : validates ⟨options.init, i.locator⟩ e₀ = true := by
    rw [validates, hinit]
    exact bne_iff_ne.mpr hne₀
  obtain ⟨-, ⟨d, -, -, hd, rfl⟩ | ⟨hlazy, rfl⟩⟩ := place_ok hplace
  · obtain ⟨content, hc⟩ :=
      (validate_eq_ok_iff ((Locator.locate_bound hd).trans hroom)).mp (hvalid hvalidates)
    rw [heq]
    exact ⟨content, d, hd, hc⟩
  · refine absurd ⟨?_, hne₀⟩ hlazy
    rw [Policy.isEager, hinit]
    exact Bool.or_true _

/-- **What validation certifies.** An index that was built with validation, however it has been used
since, reads every file that is not empty: its content has the size and the checksum of the
directory. Empty files were not looked at. They are read if they are intact, and all files are
validated if all empty ones are. -/
theorem build_certified (h : build options codec s = .ok i) (hinit : options.init = .validate)
    (uses : List Use) :
    let j := i.useAll codec s uses
    (∀ path e, j.find? path = some e → e.compressedSize ≠ 0 →
      ∃ content, (j.readContent codec s path).1 = .ok content ∧
        content.length = e.uncompressedSize ∧ crc32 content = e.descriptor.crc32) ∧
    (∀ path e, j.find? path = some e → e.compressedSize = 0 →
      ((∃ content, (j.readContent codec s path).1 = .ok content) ↔
        e.Intact j.locator codec s (j.tree.nameOf e))) ∧
    ((j.validateAll codec s).1 = .ok () ↔ ∀ p e, (p, e) ∈ j.tree.toList → e.compressedSize = 0 →
      e.Intact j.locator codec s (j.tree.nameOf e)) := by
  intro j
  have hcoherent := build_coherent h
  have hj : j.Coherent s := hcoherent.useAll codec uses
  have hr : Reaches s i j := useAll_reaches hcoherent.tree codec uses
  have hintact : ∀ p e, (p, e) ∈ j.tree.toList → e.compressedSize ≠ 0 →
      e.Intact j.locator codec s (j.tree.nameOf e) := by
    intro p e he hne
    obtain ⟨e', he', heq⟩ := Tree.mem_of_unlocated hr.unlocated he
    have hname : e'.name = e.name := (congrArg Entry.name heq :)
    have hsize : e'.compressedSize = e.compressedSize := (congrArg Entry.compressedSize heq :)
    have h' := build_intact h hinit he' (by rw [hsize]; exact hne)
    rw [← Entry.intact_unlocated, heq, Entry.intact_unlocated, Tree.nameOf, hname] at h'
    rw [hr.locator, Tree.nameOf, hr.names]
    exact h'
  refine ⟨fun path e hf hne => ?_, fun path e hf _ => hj.readContent_isOk_iff hf, ?_⟩
  · have hmem := (find?_eq_some_iff hj).mp hf
    obtain ⟨content, hc⟩ := (hj.readContent_isOk_iff hf).mpr (hintact _ e hmem hne)
    obtain ⟨d, -, hdecode⟩ := (hj.readContent_eq_ok_iff hf).mp hc
    exact ⟨content, hc, Entry.decode_ok hdecode⟩
  · rw [hj.validateAll_eq_ok_iff]
    refine ⟨fun hall p e he _ => hall p e he, fun hempty p e he => ?_⟩
    by_cases hzero : e.compressedSize = 0
    · exact hempty p e he hzero
    · exact hintact p e he hzero

/-- A file that is not empty is read and validated after it has been resolved. -/
theorem build_certified_resolved :
    let f := { Packed.plain [0x61] [1, 2, 3] with crc32 := 0x55BC801D }
    let s := Stream.ofBytes (Packed.archive [f] [])
    let codec : Codec := fun _ stored _ => .ok stored
    ∃ i, build { init := .validate } codec s = .ok i ∧
      let j := i.useAll codec s [.resolve "a", .resolve "b"]
      (∃ content, (j.readContent codec s "A").1 = .ok content ∧ crc32 content = 0x55BC801D) ∧
        (j.validateAll codec s).1 = .ok () := by
  intro f s codec
  have hrun : (build { init := .validate } codec s).toOption.map (fun i =>
      let j := i.useAll codec s [.resolve "a", .resolve "b"]
      ((j.find? "A").map fun e => (decide (e.compressedSize = 0), e.descriptor.crc32),
        decide (∀ x ∈ j.tree.toList, x.2.compressedSize ≠ 0))) =
      some (some (false, 0x55BC801D), true) := by decide +kernel
  obtain ⟨i, hi, hrun⟩ := Option.map_eq_some_iff.mp hrun
  simp only [Prod.mk.injEq, decide_eq_true_eq] at hrun
  obtain ⟨hfind, hnonempty⟩ := hrun
  obtain ⟨e, hf, hspec⟩ := Option.map_eq_some_iff.mp hfind
  simp only [Prod.mk.injEq, decide_eq_false_iff_not] at hspec
  have hi := toOption_eq_some_iff.mp hi
  obtain ⟨hread, -, hvalidate⟩ := build_certified hi rfl [.resolve "a", .resolve "b"]
  obtain ⟨content, hc, -, hcrc⟩ := hread "A" e hf hspec.1
  refine ⟨i, hi, ⟨content, hc, hcrc.trans hspec.2⟩, hvalidate.mpr fun p e he hzero => ?_⟩
  exact absurd hzero (hnonempty (p, e) he)

/-- **Validation does not look at empty files**: the checksum of this one is wrong. -/
theorem build_certified_empty :
    let s := Stream.ofBytes (Packed.archive [{ Packed.plain [0x61] [] with crc32 := 1 }] [])
    let codec : Codec := fun _ stored _ => .ok stored
    ∃ i, build { init := .validate } codec s = .ok i ∧ (i.find? "a").isSome = true ∧
      (i.validateAll codec s).1 = .error (.checksumMismatch 1 0) ∧
      (i.readContent codec s "a").1 = .error (.checksumMismatch 1 0) := by
  intro s codec
  have hrun : (build { init := .validate } codec s).toOption.map (fun i =>
      ((i.find? "a").isSome, decide ((i.validateAll codec s).1 = .error (.checksumMismatch 1 0)),
        decide ((i.readContent codec s "a").1 = .error (.checksumMismatch 1 0)))) =
      some (true, true, true) := by decide +kernel
  obtain ⟨i, hi, hrun⟩ := Option.map_eq_some_iff.mp hrun
  simp only [Prod.mk.injEq, decide_eq_true_eq] at hrun
  exact ⟨i, toOption_eq_some_iff.mp hi, hrun⟩

end Index

end PakIndex
