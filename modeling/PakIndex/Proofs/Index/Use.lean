import PakIndex.Index.Read
import PakIndex.Proofs.Index.Build

/-!
# Using an index

* `Index.Use`, `Index.useAll`: uses of an index over a stream that stays as it is.
* **`Index.Coherent.located`**, **`Index.Coherent.useAll`**: an index goes on to fit its stream.
* `Index.resolve_cases`, `Index.readStored_cases`, `Index.readContent_cases`,
  `Index.validateAll_spec`: what the uses that read come to.
-/

namespace PakIndex.Index

variable {s : Stream} {codec : Codec} {i j : Index} {e : Entry} {p : Path} {d : UInt32}

/-! ## Locating one payload -/

/-- The index in which the payload of the file at a path has a place. -/
def located (i : Index) (p : Path) (d : UInt32) : Index :=
  { i with tree := i.tree.modify p fun e => { e with dataOffset := some d } }

theorem toList_located (h : i.tree.WellFormed) (p : Path) (d : UInt32) :
    (i.located p d).tree.toList = i.tree.toList.map fun x =>
      (x.1, if x.1 = p then { x.2 with dataOffset := some d } else x.2) :=
  Tree.toList_modify h.arranged p _

theorem mem_located (h : i.tree.WellFormed) (he : (p, e) ∈ i.tree.toList) {q : Path} {x : Entry}
    (hx : (q, x) ∈ (i.located p d).tree.toList) :
    (q, x) ∈ i.tree.toList ∨ q = p ∧ x = { e with dataOffset := some d } := by
  rw [toList_located h] at hx
  obtain ⟨⟨q, y⟩, hy, ⟨⟩⟩ := List.mem_map.mp hx
  by_cases hq : q = p
  · subst hq
    have hye : y = e := h.entry_eq hy he
    exact .inr ⟨rfl, by rw [hye]; exact if_pos rfl⟩
  · refine .inl ?_
    show (q, if q = p then _ else y) ∈ _
    rw [if_neg hq]
    exact hy

/-- **An index goes on to fit its stream** when a payload is located. -/
theorem Coherent.located (h : i.Coherent s) (he : (p, e) ∈ i.tree.toList)
    (hd : i.locator.locate s e (i.tree.nameOf e) = .ok d) : (i.located p d).Coherent s := by
  have hlist := toList_located h.tree p d
  refine ⟨h.tree.modify p fun _ => rfl, fun q x hx => ?_, fun q x hx => ?_, h.readable,
    h.commentShort, ?_, h.inside, h.small⟩
  · rcases mem_located h.tree he hx with hx | ⟨rfl, rfl⟩
    · exact h.entries q x hx
    · exact (h.entries q e he).locate hd
  · have hslots : Tree.slotOf i.directoryOffset (i.located p d).tree.toList =
        Tree.slotOf i.directoryOffset i.tree.toList := by
      rw [hlist]
      refine Tree.slotOf_map _ _
        (f := fun x => (x.1, if x.1 = p then { x.2 with dataOffset := some d } else x.2))
        fun x => ⟨rfl, ?_⟩
      show (if x.1 = p then _ else x.2).headerOffset = _
      split <;> rfl
    show x.slotEnd = Tree.slotOf i.directoryOffset (i.located p d).tree.toList q
    rw [hslots]
    rcases mem_located h.tree he hx with hx | ⟨rfl, rfl⟩
    · exact h.slots q x hx
    · exact h.slots q e he
  · refine le_trans (le_of_eq ?_) h.records
    rw [recordsSize, hlist, List.map_map]
    refine congrArg List.sum (List.map_congr_left fun x _ => ?_)
    show 46 + (i.tree.nameOf (if x.1 = p then _ else x.2)).length = _
    split <;> rfl

theorem Coherent.header_le (h : i.Coherent s) (he : (p, e) ∈ i.tree.toList) :
    e.headerOffset.toNat + 30 + (i.tree.nameOf e).length ≤ s.size := by
  have h₁ := (h.entries p e he).headerOffset_le
  have h₂ : 46 + (i.tree.nameOf e).length ≤ i.recordsSize :=
    List.le_sum_of_mem (List.mem_map.mpr ⟨(p, e), he, rfl⟩)
  have h₃ := h.records
  have h₄ := h.inside
  change e.headerOffset.toNat ≤ i.directoryOffset.toNat at h₁
  omega

/-- **What locating the payload of an entry comes to.** It fails only because the local header
contradicts the directory. Otherwise the index keeps the place, and nothing else changes. -/
theorem settle_cases (h : i.Coherent s) (he : (p, e) ∈ i.tree.toList) :
    (∃ err, i.settle s p e = (.error err, i) ∧ err.class = .crossValidation ∧
      i.locator.locate s e (i.tree.nameOf e) = .error err) ∨
    ∃ d j, i.settle s p e = (.ok { e with dataOffset := some d }, j) ∧ j.Coherent s ∧
      (j = i ∨ j = i.located p d) ∧ (p, { e with dataOffset := some d }) ∈ j.tree.toList := by
  cases hd : e.dataOffset with
  | some d =>
    have heq : { e with dataOffset := some d } = e := by rw [← hd]
    refine .inr ⟨d, i, ?_, h, .inl rfl, ?_⟩
    · rw [settle, hd, heq]
    · rw [heq]
      exact he
  | none =>
    cases hl : i.locator.locate s e (i.tree.nameOf e) with
    | error err =>
      refine .inl ⟨err, ?_, Locator.locate_error (h.header_le he) hl, rfl⟩
      rw [settle, hd, hl]
    | ok d =>
      refine .inr ⟨d, i.located p d, ?_, h.located he hl, .inr rfl, ?_⟩
      · rw [settle, hd, hl]
        rfl
      · rw [toList_located h.tree]
        exact List.mem_map.mpr ⟨(p, e), he, by rw [if_pos rfl]⟩

theorem mem_settle (h : i.tree.WellFormed) {entries : List (Path × Entry)}
    (hp : p ∉ entries.map Prod.fst) (hmem : ∀ x ∈ entries, x ∈ i.tree.toList) :
    ∀ x ∈ entries, x ∈ (i.settle s p e).2.tree.toList := by
  intro x hx
  unfold settle
  cases e.dataOffset with
  | some d => exact hmem x hx
  | none =>
    cases i.locator.locate s e (i.tree.nameOf e) with
    | error err => exact hmem x hx
    | ok d =>
      have hne : x.1 ≠ p := fun hxp => hp (List.mem_map.mpr ⟨x, hx, hxp⟩)
      show x ∈ (i.located p d).tree.toList
      rw [toList_located h]
      exact List.mem_map.mpr ⟨x, hmem x hx, by rw [if_neg hne]⟩

theorem stored_of_mem (h : i.Coherent s)
    (he : (p, { e with dataOffset := some d }) ∈ i.tree.toList) :
    Entry.stored s { e with dataOffset := some d } =
        .ok (s.toList.field d.toNat e.compressedSize) ∧
      d.toNat + e.compressedSize ≤ s.size := by
  have hend := (h.entries _ _ he).end_le rfl (le_trans (Nat.le_add_right _ _) h.inside)
  exact ⟨Entry.stored_of_le rfl hend, hend⟩

/-! ## Reading one file -/

theorem find?_eq_some_iff (h : i.Coherent s) {path : String} :
    i.find? path = some e ↔ (querySegments path, e) ∈ i.tree.toList :=
  h.tree.find?_eq_some_iff

/-- **What resolving a file comes to**: it is not there, or its local header contradicts the
directory, or its payload has a place. -/
theorem resolve_cases (h : i.Coherent s) (path : String) :
    (i.find? path = none ∧ i.resolve s path = (.error (.fileNotFound path), i)) ∨
    ∃ e, i.find? path = some e ∧
      ((∃ err, i.resolve s path = (.error err, i) ∧ err.class = .crossValidation ∧
        i.locator.locate s e (i.tree.nameOf e) = .error err) ∨
      ∃ d j, i.resolve s path = (.ok { e with dataOffset := some d }, j) ∧ j.Coherent s ∧
        j.find? path = some { e with dataOffset := some d } ∧
        i.locator.locate s e (i.tree.nameOf e) = .ok d) := by
  cases hf : i.find? path with
  | none =>
    refine .inl ⟨rfl, ?_⟩
    change i.tree.find? path = none at hf
    rw [resolve, hf]
  | some e =>
    refine .inr ⟨e, rfl, ?_⟩
    have hmem := (find?_eq_some_iff h).mp hf
    change i.tree.find? path = some e at hf
    simp only [resolve, hf]
    rcases settle_cases h hmem with ⟨err, hs, hc, hl⟩ | ⟨d, j, hs, hj, hij, hmem'⟩
    · exact .inl ⟨err, hs, hc, hl⟩
    · refine .inr ⟨d, j, hs, hj, (find?_eq_some_iff hj).mpr hmem', ?_⟩
      have hloc := (hj.entries _ _ hmem').located d rfl
      rcases hij with rfl | rfl
      · exact hloc
      · exact hloc

theorem resolve_of_located {path : String}
    (hf : i.find? path = some { e with dataOffset := some d }) :
    i.resolve s path = (.ok { e with dataOffset := some d }, i) := by
  change i.tree.find? path = _ at hf
  simp only [resolve, hf, settle]

/-- **A file that is resolved is read**: its stored bytes are those at its place, and its content is
what they are decoded to. -/
theorem read_of_resolve {path : String} (hj : j.Coherent s)
    (hr : i.resolve s path = (.ok { e with dataOffset := some d }, j))
    (hf : j.find? path = some { e with dataOffset := some d }) (codec : Codec) :
    i.readStored s path = (.ok (s.toList.field d.toNat e.compressedSize), j) ∧
      i.readContent codec s path =
        (e.decode codec (s.toList.field d.toNat e.compressedSize), j) := by
  have hr' : j.resolve s path = _ := resolve_of_located hf
  obtain ⟨hstored, -⟩ := stored_of_mem hj ((find?_eq_some_iff hj).mp hf)
  constructor
  · simp only [readStored, hr, hstored]
  · simp only [readContent, readStored, hr, hr', hstored]
    rfl

/-- **What reading the stored bytes of a file comes to.** -/
theorem readStored_cases (h : i.Coherent s) (path : String) :
    (i.find? path = none ∧ i.readStored s path = (.error (.fileNotFound path), i)) ∨
    ∃ e, i.find? path = some e ∧
      ((∃ err, i.readStored s path = (.error err, i) ∧ err.class = .crossValidation) ∨
      ∃ (d : UInt32) (j : Index), i.readStored s path =
          (.ok (s.toList.field d.toNat e.compressedSize), j) ∧ j.Coherent s) := by
  rcases resolve_cases h path with ⟨hf, hr⟩ | ⟨e, hf, ⟨err, hr, hc, -⟩ | ⟨d, j, hr, hj, hfj, -⟩⟩
  · exact .inl ⟨hf, by simp only [readStored, hr]⟩
  · exact .inr ⟨e, hf, .inl ⟨err, by simp only [readStored, hr], hc⟩⟩
  · have hread := (read_of_resolve hj hr hfj fun _ stored _ => .ok stored).1
    exact .inr ⟨e, hf, .inr ⟨d, j, hread, hj⟩⟩

/-- **What reading a file comes to**: what reading its stored bytes comes to, or their decoding. -/
theorem readContent_cases (h : i.Coherent s) (codec : Codec) (path : String) :
    (i.find? path = none ∧ i.readContent codec s path = (.error (.fileNotFound path), i)) ∨
    ∃ e, i.find? path = some e ∧
      ((∃ err, i.readContent codec s path = (.error err, i) ∧ err.class = .crossValidation) ∨
      ∃ (d : UInt32) (j : Index), i.readContent codec s path =
          (e.decode codec (s.toList.field d.toNat e.compressedSize), j) ∧ j.Coherent s) := by
  rcases resolve_cases h path with ⟨hf, hr⟩ | ⟨e, hf, ⟨err, hr, hc, -⟩ | ⟨d, j, hr, hj, hfj, -⟩⟩
  · exact .inl ⟨hf, by simp only [readContent, hr]⟩
  · exact .inr ⟨e, hf, .inl ⟨err, by simp only [readContent, hr], hc⟩⟩
  · exact .inr ⟨e, hf, .inr ⟨d, j, (read_of_resolve hj hr hfj codec).2, hj⟩⟩

/-- **A file whose payload can be located is read**, whether or not its place is known yet. -/
theorem read_of_locate (h : i.Coherent s) {path : String} (hf : i.find? path = some e)
    (hd : i.locator.locate s e (i.tree.nameOf e) = .ok d) (codec : Codec) :
    (i.resolve s path).1 = .ok { e with dataOffset := some d } ∧
      (i.readStored s path).1 = .ok (s.toList.field d.toNat e.compressedSize) ∧
      (i.readContent codec s path).1 =
        e.decode codec (s.toList.field d.toNat e.compressedSize) := by
  rcases resolve_cases h path with
    ⟨hn, -⟩ | ⟨e', hf', ⟨err, -, -, hl⟩ | ⟨d', j, hr, hj, hfj, hd'⟩⟩
  · exact absurd (hn.symm.trans hf) nofun
  · cases hf'.symm.trans hf
    cases hl.symm.trans hd
  · cases hf'.symm.trans hf
    cases hd'.symm.trans hd
    obtain ⟨hstored, hcontent⟩ := read_of_resolve hj hr hfj codec
    rw [hr, hstored, hcontent]
    exact ⟨rfl, rfl, rfl⟩

/-! ## Validating all files -/

/-- **What validating files comes to**, each of which is listed: it fails only because a local
header contradicts the directory or because a payload is broken. -/
theorem validateEntries_spec {entries : List (Path × Entry)} (h : i.Coherent s)
    (hnd : (entries.map Prod.fst).Nodup) (hmem : ∀ x ∈ entries, x ∈ i.tree.toList) :
    (validateEntries codec s entries i).2.Coherent s ∧
      ∀ err, (validateEntries codec s entries i).1 = .error err →
        err.class = .crossValidation ∨ err.class = .diagnostic := by
  induction entries generalizing i with
  | nil => exact ⟨h, nofun⟩
  | cons x entries ih =>
    obtain ⟨p, e⟩ := x
    obtain ⟨hx, hentries⟩ := List.forall_mem_cons.mp hmem
    rw [List.map_cons, List.nodup_cons] at hnd
    rw [validateEntries]
    rcases settle_cases h hx with ⟨err, hs, hc, -⟩ | ⟨d, j, hs, hj, hij, hx'⟩
    · rw [hs]
      exact ⟨h, by rintro _ ⟨⟩; exact .inl hc⟩
    · rw [hs]
      have hend := (stored_of_mem hj hx').2
      simp only
      split
      · rename_i err hv
        refine ⟨hj, ?_⟩
        rintro _ ⟨⟩
        exact .inr (Entry.validate_error (e := { e with dataOffset := some d }) rfl hend hv)
      · -- The other files are listed as before.
        have hkept := mem_settle (s := s) (e := e) h.tree hnd.1 hentries
        rw [hs] at hkept
        exact ih hj hnd.2 hkept

theorem validateAll_spec (h : i.Coherent s) (codec : Codec) : (i.validateAll codec s).2.Coherent s ∧
    ∀ err, (i.validateAll codec s).1 = .error err →
      err.class = .crossValidation ∨ err.class = .diagnostic :=
  validateEntries_spec h h.tree.nodup_paths fun _ hx => hx

/-! ## Any sequence of uses -/

/-- A use of an index over a stream that stays as it is. -/
inductive Use
  | find (path : String)
  | folder (path : String)
  | entries
  | resolve (path : String)
  | readStored (path : String)
  | readContent (path : String)
  | validateAll
  | markDirty

/-- The index after a use. Lookups leave it as it is. -/
def use (codec : Codec) (s : Stream) (i : Index) : Use → Index
  | .find _ | .folder _ | .entries => i
  | .resolve path => (i.resolve s path).2
  | .readStored path => (i.readStored s path).2
  | .readContent path => (i.readContent codec s path).2
  | .validateAll => (i.validateAll codec s).2
  | .markDirty => i.markDirty.2

/-- The index after a sequence of uses. -/
def useAll (codec : Codec) (s : Stream) (i : Index) (uses : List Use) : Index :=
  uses.foldl (use codec s) i

theorem Coherent.markDirty (h : i.Coherent s) : i.markDirty.2.Coherent s := by
  unfold Index.markDirty
  split
  · exact h
  · exact ⟨h.tree, h.entries, h.slots, h.readable, h.commentShort, h.records, h.inside, h.small⟩

theorem Coherent.use (h : i.Coherent s) (codec : Codec) (u : Use) :
    (Index.use codec s i u).Coherent s := by
  cases u with
  | find _ => exact h
  | folder _ => exact h
  | entries => exact h
  | resolve path =>
    show (i.resolve s path).2.Coherent s
    rcases resolve_cases h path with ⟨-, hr⟩ | ⟨e, -, ⟨err, hr, -⟩ | ⟨d, j, hr, hj, -⟩⟩ <;> rw [hr]
    exacts [h, h, hj]
  | readStored path =>
    show (i.readStored s path).2.Coherent s
    rcases readStored_cases h path with ⟨-, hr⟩ | ⟨e, -, ⟨err, hr, -⟩ | ⟨d, j, hr, hj⟩⟩ <;>
      rw [hr]
    exacts [h, h, hj]
  | readContent path =>
    show (i.readContent codec s path).2.Coherent s
    rcases readContent_cases h codec path with
      ⟨-, hr⟩ | ⟨e, -, ⟨err, hr, -⟩ | ⟨d, j, hr, hj⟩⟩ <;>
      rw [hr]
    exacts [h, h, hj]
  | validateAll => exact (validateAll_spec h codec).1
  | markDirty => exact h.markDirty

/-! ## What uses leave as it is -/

/-- Whether two indexes are of one archive: they agree on all that the trailer says. -/
def SameArchive (i j : Index) : Prop :=
  j.headers = i.headers ∧ j.directoryOffset = i.directoryOffset ∧ j.directorySize = i.directorySize

theorem SameArchive.trans {k : Index} (h : i.SameArchive j) (h' : j.SameArchive k) :
    i.SameArchive k :=
  ⟨h'.1.trans h.1, h'.2.1.trans h.2.1, h'.2.2.trans h.2.2⟩

theorem settle_sameArchive (i : Index) (s : Stream) (p : Path) (e : Entry) :
    i.SameArchive (i.settle s p e).2 := by
  unfold settle
  split
  · exact ⟨rfl, rfl, rfl⟩
  · split <;> exact ⟨rfl, rfl, rfl⟩

theorem resolve_sameArchive (i : Index) (s : Stream) (path : String) :
    i.SameArchive (i.resolve s path).2 := by
  unfold resolve
  split
  · exact ⟨rfl, rfl, rfl⟩
  · exact settle_sameArchive i s _ _

theorem readStored_sameArchive (i : Index) (s : Stream) (path : String) :
    i.SameArchive (i.readStored s path).2 := by
  have h := resolve_sameArchive i s path
  unfold readStored
  split <;> rename_i hr <;> rw [hr] at h <;> exact h

theorem readContent_sameArchive (i : Index) (codec : Codec) (s : Stream) (path : String) :
    i.SameArchive (i.readContent codec s path).2 := by
  have h := resolve_sameArchive i s path
  unfold readContent
  split
  · rename_i hr
    rw [hr] at h
    exact h
  · rename_i j hr
    rw [hr] at h
    have h' := h.trans (readStored_sameArchive _ s path)
    split <;> rename_i hs <;> rw [hs] at h' <;> exact h'

theorem validateEntries_sameArchive (codec : Codec) (s : Stream) (entries : List (Path × Entry))
    (i : Index) : i.SameArchive (validateEntries codec s entries i).2 := by
  induction entries generalizing i with
  | nil => exact ⟨rfl, rfl, rfl⟩
  | cons x entries ih =>
    have h := settle_sameArchive i s x.1 x.2
    rw [validateEntries]
    split
    · rename_i hs
      rw [hs] at h
      exact h
    · rename_i hs
      rw [hs] at h
      split
      · exact h
      · exact h.trans (ih _)

theorem use_sameArchive (codec : Codec) (s : Stream) (i : Index) (u : Use) :
    i.SameArchive (Index.use codec s i u) := by
  cases u with
  | find _ => exact ⟨rfl, rfl, rfl⟩
  | folder _ => exact ⟨rfl, rfl, rfl⟩
  | entries => exact ⟨rfl, rfl, rfl⟩
  | resolve path => exact resolve_sameArchive i s path
  | readStored path => exact readStored_sameArchive i s path
  | readContent path => exact readContent_sameArchive i codec s path
  | validateAll => exact validateEntries_sameArchive codec s _ i
  | markDirty =>
    show i.SameArchive i.markDirty.2
    unfold Index.markDirty
    split <;> exact ⟨rfl, rfl, rfl⟩

/-- **Uses leave what the trailer says as it is.** -/
theorem useAll_sameArchive (codec : Codec) (s : Stream) (i : Index) (uses : List Use) :
    i.SameArchive (i.useAll codec s uses) := by
  induction uses generalizing i with
  | nil => exact ⟨rfl, rfl, rfl⟩
  | cons u uses ih => exact (use_sameArchive codec s i u).trans (ih _)

/-- **An index goes on to fit its stream**, however it is used. -/
theorem Coherent.useAll (h : i.Coherent s) (codec : Codec) (uses : List Use) :
    (Index.useAll codec s i uses).Coherent s := by
  induction uses generalizing i with
  | nil => exact h
  | cons u uses ih => exact ih (h.use codec u)

end PakIndex.Index
