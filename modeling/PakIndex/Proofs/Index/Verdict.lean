import PakIndex.Proofs.Index.Answers
import PakIndex.Proofs.Index.Frame
import PakIndex.Proofs.Index.Paths

/-!
# Validating and reading entry by entry

* `Index.Undisturbed`: how indexes come about over a stream that nobody else changes.
* `Index.outcome`: what locating, reading and decoding the payload of an entry comes to.
* **`Index.Coherent.validateEntries_cases`**: a walk along entries stops at the first whose outcome
  is an error, and the entries before it are located by then.
* `Index.Coherent.readContent_pathOf`: reading an entry by its listed path has the same outcome.
* **`Index.validateAll_outcomes`**: to validate all files is to read each of them.
-/

namespace PakIndex

theorem Entry.validate_eq_map (codec : Codec) (s : Stream) (e : Entry) :
    e.validate codec s = (e.stored s >>= e.decode codec).map fun _ => () := by
  rw [validate]
  cases e.stored s <;> rfl

theorem Entry.content_of_decode {codec : Codec} {e : Entry} {stored content : Bytes}
    (h : e.decode codec stored = .ok content) :
    (e.method = .store → content = stored) ∧
      (e.method ≠ .store → codec e.method stored e.uncompressedSize = .ok content) := by
  unfold decode at h
  by_cases hm : e.method = .store
  · simp only [if_pos hm] at h
    obtain ⟨-, -, rfl⟩ := verify_eq_ok_iff.mp h
    exact ⟨fun _ => rfl, fun hne => absurd hm hne⟩
  · simp only [if_neg hm, bind_eq_ok_iff] at h
    obtain ⟨decoded, hd, h⟩ := h
    obtain ⟨-, -, rfl⟩ := verify_eq_ok_iff.mp h
    refine ⟨fun he => absurd he hm, fun _ => ?_⟩
    cases hc : codec e.method stored e.uncompressedSize with
    | error fault =>
      rw [hc] at hd
      cases hd
    | ok result =>
      rw [hc] at hd
      cases hd
      rfl

namespace Index

variable {i j : Index} {s : Stream} {codec : Codec} {e : Entry} {p : Path} {path : String}
  {content : Bytes}

/-! ## Undisturbed indexes -/

/-- How an index comes about over a stream that nobody else changes: it is built or of a new
archive, and it is used and flushed in any order. -/
inductive Undisturbed (codec : Codec) : Index → Stream → Prop
  | build {options : Options} {s : Stream} {i : Index} :
    build options codec s = .ok i → Undisturbed codec i s
  | create (options : Options) : Undisturbed codec (create options) (.ofByteArray .empty)
  | memorize {i : Index} {s : Stream} (path : Option String) :
    Undisturbed codec i s → Undisturbed codec { i with path := path } s
  | use {i : Index} {s : Stream} (u : Use) :
    Undisturbed codec i s → Undisturbed codec (use codec s i u) s
  | flush {i : Index} {content : ByteArray} : Undisturbed codec i (.ofByteArray content) →
    Undisturbed codec (i.flush content).2.1 (.ofByteArray (i.flush content).2.2)

theorem Undisturbed.coherent (h : Undisturbed codec i s) : i.Coherent s := by
  induction h with
  | build h => exact build_coherent h
  | create options => exact create_coherent options
  | memorize path _ ih => exact ih.memorize path
  | use u _ ih => exact ih.use codec u
  | flush _ ih => exact ih.flush_agree.1

/-! ## The outcome of one entry -/

/-- What locating the payload of a listed entry, reading it and decoding it comes to. -/
def outcome (i : Index) (codec : Codec) (s : Stream) (x : Path × Entry) : Except Error Bytes := do
  let e ← (i.settle s x.1 x.2).1
  let stored ← e.stored s
  e.decode codec stored

theorem Coherent.outcome_eq (h : i.Coherent s) (he : (p, e) ∈ i.tree.toList) :
    i.outcome codec s (p, e) = e.settled i.locator s (i.tree.nameOf e) >>= fun v =>
      v.stored s >>= v.decode codec := by
  rw [outcome, h.settle_fst he]

theorem Coherent.outcome_reaches (hi : i.Coherent s) (hj : j.Coherent s) (hr : Reaches s i j)
    {x : Path × Entry} (hx : x ∈ i.tree.toList) (hx' : x ∈ j.tree.toList) :
    j.outcome codec s x = i.outcome codec s x := by
  rw [hi.outcome_eq hx, hj.outcome_eq hx', hr.locator, Tree.nameOf, Tree.nameOf, hr.names]

/-! ## A walk along entries -/

/-- Whether the payload of a listed entry has a place in an index, with all else as it is listed. -/
def Settles (j : Index) (x : Path × Entry) : Prop :=
  ∃ d, (x.1, { x.2 with dataOffset := some d }) ∈ j.tree.toList

theorem mem_validateEntries {entries : List (Path × Entry)} (h : i.tree.WellFormed)
    (hnd : (entries.map Prod.fst).Nodup) (hmem : ∀ x ∈ entries, x ∈ i.tree.toList)
    {y : Path × Entry} (hy : y ∈ i.tree.toList) (hne : y.1 ∉ entries.map Prod.fst) :
    y ∈ (validateEntries codec s entries i).2.tree.toList := by
  induction entries generalizing i with
  | nil => exact hy
  | cons x entries ih =>
    obtain ⟨p, e⟩ := x
    obtain ⟨hx, hentries⟩ := List.forall_mem_cons.mp hmem
    rw [List.map_cons, List.nodup_cons] at hnd
    rw [List.map_cons, List.mem_cons, not_or] at hne
    have hr := settle_reaches (s := s) hx
    have hkept := mem_settle (s := s) (e := e) h hnd.1 hentries
    have hsingle : ∀ z ∈ [y], z ∈ (i.settle s p e).2.tree.toList :=
      mem_settle h (by simpa using Ne.symm hne.1) (by simpa using hy)
    have hykept := hsingle y (.head _)
    rw [validateEntries]
    split <;> rename_i k heq <;> rw [heq] at hr hkept hykept
    · exact hykept
    · split
      · exact hykept
      · exact ih (hr.wellFormed h) hnd.2 hkept hykept hne.2

theorem validateEntries_frame (entries : List (Path × Entry)) (i : Index) :
    { (validateEntries codec s entries i).2 with tree := i.tree } = i := by
  have hsettle : ∀ (i : Index) p e, { (i.settle s p e).2 with tree := i.tree } = i := by
    intro i p e
    unfold settle
    split
    · rfl
    · split <;> rfl
  induction entries generalizing i with
  | nil => rfl
  | cons x entries ih =>
    have hx := hsettle i x.1 x.2
    rw [validateEntries]
    split <;> rename_i k heq <;> rw [heq] at hx
    · exact hx
    · split
      · exact hx
      · have hk := congrArg (fun k : Index => { k with tree := i.tree }) (ih k)
        exact hk.trans hx

/-- **What a walk along entries comes to.** All outcomes are contents, and all entries are located
afterwards; or the walk stops with the first outcome that is an error, the entries before it are
located, and those behind it are as they were. -/
theorem Coherent.validateEntries_cases {entries : List (Path × Entry)} (h : i.Coherent s)
    (hnd : (entries.map Prod.fst).Nodup) (hmem : ∀ x ∈ entries, x ∈ i.tree.toList) :
    let walked := validateEntries codec s entries i
    (walked.1 = .ok () ∧
      ∀ x ∈ entries, (∃ content, i.outcome codec s x = .ok content) ∧ walked.2.Settles x) ∨
    ∃ before x after err, entries = before ++ x :: after ∧ walked.1 = .error err ∧
      i.outcome codec s x = .error err ∧
      (∀ y ∈ before, (∃ content, i.outcome codec s y = .ok content) ∧ walked.2.Settles y) ∧
      ∀ y ∈ after, y ∈ walked.2.tree.toList := by
  -- Along the entries: settling the first one leaves those still to come listed, with the outcomes
  -- that they had, and the rest of the walk leaves the first one settled.
  induction entries generalizing i with
  | nil => exact .inl ⟨rfl, nofun⟩
  | cons x entries ih =>
    obtain ⟨p, e⟩ := x
    obtain ⟨hx, hentries⟩ := List.forall_mem_cons.mp hmem
    rw [List.map_cons, List.nodup_cons] at hnd
    have hr := settle_reaches (s := s) hx
    have hkept := mem_settle (s := s) (e := e) h.tree hnd.1 hentries
    intro walked
    rcases settle_cases h hx with ⟨err, hs, -⟩ | ⟨d, j, hs, hj, -, hsettled⟩
    · have hwalked : walked = (.error err, i) := by simp only [walked, validateEntries, hs]
      refine .inr ⟨[], (p, e), entries, err, rfl, by rw [hwalked], ?_, nofun, ?_⟩
      · rw [outcome, hs]
        rfl
      · rw [hwalked]
        exact hentries
    rw [hs] at hr hkept
    have houtcome : i.outcome codec s (p, e) =
        (Entry.stored s { e with dataOffset := some d } >>=
          Entry.decode codec { e with dataOffset := some d }) := by
      rw [outcome, hs]
      rfl
    have hvalidate := Entry.validate_eq_map codec s { e with dataOffset := some d }
    rw [← houtcome] at hvalidate
    cases hcontent : i.outcome codec s (p, e) with
    | error err =>
      rw [hcontent] at hvalidate
      have hwalked : walked = (.error err, j) := by
        simp only [walked, validateEntries, hs, hvalidate]
        rfl
      refine .inr ⟨[], (p, e), entries, err, rfl, by rw [hwalked], hcontent, nofun, ?_⟩
      rw [hwalked]
      exact hkept
    | ok content =>
      rw [hcontent] at hvalidate
      have hwalked : walked = validateEntries codec s entries j := by
        simp only [walked, validateEntries, hs, hvalidate]
        rfl
      have hfirst : (∃ content, i.outcome codec s (p, e) = .ok content) ∧
          walked.2.Settles (p, e) := by
        refine ⟨⟨content, hcontent⟩, d, ?_⟩
        rw [hwalked]
        exact mem_validateEntries hj.tree hnd.2 hkept hsettled hnd.1
      have hsame : ∀ y ∈ entries, j.outcome codec s y = i.outcome codec s y := fun y hy =>
        h.outcome_reaches hj hr (hentries y hy) (hkept y hy)
      rw [hwalked] at hfirst ⊢
      rcases ih hj hnd.2 hkept with
        ⟨hok, hall⟩ | ⟨before, y, after, err, rfl, herr, hy, hbefore, hafter⟩
      · refine .inl ⟨hok, List.forall_mem_cons.mpr ⟨hfirst, fun y hy => ?_⟩⟩
        rw [← hsame y hy]
        exact hall y hy
      · refine .inr ⟨(p, e) :: before, y, after, err, rfl, herr, ?_, ?_, hafter⟩
        · rw [← hsame y (by simp)]
          exact hy
        · refine List.forall_mem_cons.mpr ⟨hfirst, fun z hz => ?_⟩
          rw [← hsame z (by simp [hz])]
          exact hbefore z hz

/-! ## Reading by listed paths -/

theorem Coherent.readContent_pathOf (h : i.Coherent s) (he : (p, e) ∈ i.tree.toList)
    (htext : (i.tree.nameOf e).IsUtf8) :
    (i.readContent codec s (i.tree.pathOf e)).1 = i.outcome codec s (p, e) := by
  have hf : i.tree.find? (i.tree.pathOf e) = some e := h.normal.find?_pathOf he htext
  rw [h.readContent_fst, h.outcome_eq he, Tree.resolved, hf]

theorem Coherent.content_of_read (h : i.Coherent s)
    (hc : (i.readContent codec s path).1 = .ok content) :
    ∃ e d stored, i.find? path = some e ∧ i.locator.locate s e (i.tree.nameOf e) = .ok d ∧
      s.read d.toNat e.compressedSize = .ok stored ∧ e.decode codec stored = .ok content := by
  rw [h.readContent_fst, bind_eq_ok_iff] at hc
  obtain ⟨v, hv, hc⟩ := hc
  obtain ⟨e, d, hf, hd, rfl⟩ := Tree.resolved_eq_ok_iff.mp hv
  obtain ⟨stored, hstored, hdecode⟩ := bind_eq_ok_iff.mp hc
  exact ⟨e, d, stored, hf, hd, hstored, hdecode⟩

/-! ## All files -/

/-- **To validate all files is to read each of them.** An index is used and flushed in any order,
and nobody else changes its stream. To validate all files succeeds if every entry is located, read
and decoded, and fails with the error of the first one that is not; those before it are located by
then, those behind it are as they were, and nothing but the places of payloads has changed. An entry
whose name is a text has the outcome of reading the file by its listed path. What is read of a file
has the size and the checksum of its entry, and it is what is stored or what the codec makes of
that. -/
theorem validateAll_outcomes (h : Undisturbed codec i s) :
    let walked := i.validateAll codec s
    (walked.1 = .ok () ↔
      ∀ x ∈ i.tree.toList, ∃ content, i.outcome codec s x = .ok content) ∧
    (∀ err, walked.1 = .error err → ∃ before x after, i.tree.toList = before ++ x :: after ∧
      i.outcome codec s x = .error err ∧
      (∀ y ∈ before, (∃ content, i.outcome codec s y = .ok content) ∧ walked.2.Settles y) ∧
      ∀ y ∈ after, y ∈ walked.2.tree.toList) ∧
    (walked.2.tree.unlocated = i.tree.unlocated ∧ { walked.2 with tree := i.tree } = i) ∧
    (∀ p e, (p, e) ∈ i.tree.toList → (i.tree.nameOf e).IsUtf8 →
      (i.readContent codec s (i.tree.pathOf e)).1 = i.outcome codec s (p, e)) ∧
    ∀ path content, (i.readContent codec s path).1 = .ok content → ∃ e d stored,
      i.find? path = some e ∧ i.locator.locate s e (i.tree.nameOf e) = .ok d ∧
      s.read d.toNat e.compressedSize = .ok stored ∧
      content.length = e.uncompressedSize ∧ crc32 content = e.descriptor.crc32 ∧
      (e.method = .store → content = stored) ∧
      (e.method ≠ .store → codec e.method stored e.uncompressedSize = .ok content) := by
  intro walked
  have hi := h.coherent
  have hnd := hi.tree.nodup_paths
  have hcases : (walked.1 = .ok () ∧ _) ∨ _ := hi.validateEntries_cases hnd fun _ hx => hx
  refine ⟨?_, fun err herr => ?_, ⟨?_, validateEntries_frame _ i⟩,
    fun p e he htext => hi.readContent_pathOf he htext, fun path content hc => ?_⟩
  · rcases hcases with ⟨hok, hall⟩ | ⟨before, x, after, err, hlist, herr, hx, -⟩
    · exact iff_of_true hok fun x hx => (hall x hx).1
    · have herr : walked.1 = .error err := herr
      refine iff_of_false (fun hok => ?_) fun hall => ?_
      · cases hok.symm.trans herr
      · obtain ⟨content, hc⟩ := hall x (by rw [hlist]; simp)
        cases hc.symm.trans hx
  · rcases hcases with ⟨hok, -⟩ | ⟨before, x, after, err', hlist, herr', hx, hbefore, hafter⟩
    · cases hok.symm.trans herr
    · cases herr'.symm.trans herr
      exact ⟨before, x, after, hlist, hx, hbefore, hafter⟩
  · exact (validateEntries_reaches hi.tree hnd fun _ hx => hx).unlocated
  · obtain ⟨e, d, stored, hf, hd, hstored, hdecode⟩ := hi.content_of_read hc
    obtain ⟨hsize, hcrc⟩ := Entry.decode_ok hdecode
    obtain ⟨hstore, hcodec⟩ := Entry.content_of_decode hdecode
    exact ⟨e, d, stored, hf, hd, hstored, hsize, hcrc, hstore, hcodec⟩

/-- Of three files the last two have a wrong checksum. The second one stops the validation, when the
first has been located and the third has not. -/
theorem validateAll_outcomes_mismatch :
    let files := [{ Packed.plain [0x61] [1, 2, 3] with crc32 := 0x55BC801D },
      Packed.plain [0x62] [4], Packed.plain [0x63] [5]]
    let s := Stream.ofBytes (Packed.archive files [])
    let codec : Codec := fun _ stored _ => .ok stored
    ∃ i x y z, Undisturbed codec i s ∧ i.tree.toList = [x, y, z] ∧ x.2.dataOffset = none ∧
      i.outcome codec s x = .ok [1, 2, 3] ∧
      (i.readContent codec s "b").1 = .error (.checksumMismatch 0 0xD56F2B94) ∧
      i.outcome codec s z = .error (.checksumMismatch 0 0xA2681B02) ∧
      let walked := i.validateAll codec s
      walked.1 = .error (.checksumMismatch 0 0xD56F2B94) ∧ walked.2.Settles x ∧
        z ∈ walked.2.tree.toList := by
  intro files s codec
  let l := Packed.locator files
  let key : NamePool → Path × Entry → Bytes × Option UInt32 × Except Error Bytes :=
    fun names x => (names.get x.2.name, x.2.dataOffset,
      x.2.settled l s (names.get x.2.name) >>= fun v => v.stored s >>= v.decode codec)
  have hslot : ∀ names p e slot, key names (p, { e with slotEnd := slot }) = key names (p, e) := by
    intro names p e slot
    simp only [key, Entry.settled, Prod.mk.injEq, true_and]
    show (l.locate s e (names.get e.name)).map _ >>= _ = _
    cases l.locate s e (names.get e.name) <;> rfl
  have hfiles : ∀ f ∈ files, f.Valid := by
    simp only [files, List.forall_mem_cons]
    have hgood : (Packed.plain [0x61] [1, 2, 3]).Valid :=
      Packed.valid_plain ⟨0x61, rfl, by decide⟩ (by decide) (by decide)
    exact ⟨⟨hgood.last, hgood.short, hgood.extraShort, hgood.version, hgood.stored⟩,
      Packed.valid_plain ⟨0x62, rfl, by decide⟩ (by decide) (by decide),
      Packed.valid_plain ⟨0x63, rfl, by decide⟩ (by decide) (by decide), List.forall_mem_nil _⟩
  obtain ⟨i, hi, hlocator, hkeys⟩ : ∃ i, build {} codec s = .ok i ∧ i.locator = l ∧
      i.tree.toList.map (key i.tree.names) = [([0x61], none, .ok [1, 2, 3]),
        ([0x62], none, .error (.checksumMismatch 0 0xD56F2B94)),
        ([0x63], none, .error (.checksumMismatch 0 0xA2681B02))] :=
    Packed.build_of_map hfiles (by decide) (by decide +kernel) _ codec key hslot (by decide +kernel)
  clear_value s codec
  have hcoherent := build_coherent hi
  obtain ⟨x, l, hlist, hx, hrest⟩ := List.map_eq_cons_iff.mp hkeys
  obtain ⟨y, l, rfl, hy, hrest⟩ := List.map_eq_cons_iff.mp hrest
  obtain ⟨z, rfl, hz⟩ := List.map_eq_singleton_iff.mp hrest
  simp only [key, ← hlocator, Prod.mk.injEq] at hx hy hz
  have hx' : i.outcome codec s x = _ := (hcoherent.outcome_eq (by simp [hlist])).trans hx.2.2
  have hy' : i.outcome codec s y = _ := (hcoherent.outcome_eq (by simp [hlist])).trans hy.2.2
  have hz' : i.outcome codec s z = _ := (hcoherent.outcome_eq (by simp [hlist])).trans hz.2.2
  obtain ⟨hok, herror, -, hreads, -⟩ := validateAll_outcomes (.build hi)
  have hread := hreads y.1 y.2 (by simp [hlist]) (by rw [Tree.nameOf, hy.1]; decide +kernel)
  have hpath : i.tree.pathOf y.2 = "b" := by
    rw [Tree.pathOf, Tree.nameOf, hy.1]
    decide +kernel
  rw [hpath] at hread
  refine ⟨i, x, y, z, .build hi, hlist, hx.2.1, hx', hread.trans hy', hz', ?_⟩
  cases hv : (i.validateAll codec s).1 with
  | ok u =>
    obtain ⟨content, hc⟩ := hok.mp hv y (by simp [hlist])
    cases hc.symm.trans hy'
  | error err =>
    obtain ⟨before, w, after, hsplit, hw, hbefore, hafter⟩ := herror err hv
    rw [hlist] at hsplit
    -- The first entry is valid, and the second one is not before the first failure.
    rcases before with _ | ⟨b, _ | ⟨b', before⟩⟩
    · obtain ⟨rfl, -⟩ := List.cons.inj hsplit
      cases hw.symm.trans hx'
    · simp only [List.cons_append, List.nil_append, List.cons.injEq] at hsplit
      obtain ⟨rfl, rfl, rfl⟩ := hsplit
      cases hw.symm.trans hy'
      exact ⟨hv, (hbefore _ (by simp)).2, hafter _ (by simp)⟩
    · simp only [List.cons_append, List.cons.injEq] at hsplit
      obtain ⟨rfl, rfl, -⟩ := hsplit
      obtain ⟨⟨content, hc⟩, -⟩ := hbefore y (by simp)
      cases hc.symm.trans hy'

end Index

end PakIndex
