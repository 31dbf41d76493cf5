import PakIndex.Proofs.Archive.RoundTrip
import PakIndex.Proofs.Index.Levels
import PakIndex.Proofs.Index.Reach

/-!
# What is kept never changes an answer

* `Entry.settled`, `Tree.resolved`, `Tree.validated`: what uses come to if nothing is kept.
* `Index.Coherent.resolve_fst`, `Index.Coherent.readStored_fst`, `Index.Coherent.readContent_fst`,
  `Index.Coherent.validateAll_fst`: uses come to this, whatever is kept.
* **`Index.useAll_answers`**: an index of any level answers after any uses like a fresh one of the
  lowest level.
-/

namespace PakIndex

variable {l : Locator} {codec : Codec} {s : Stream} {e : Entry} {t : Tree}

/-! ## Answers from what the directory says -/

/-- The entry with its payload located, whether or not a place is known. -/
def Entry.settled (l : Locator) (s : Stream) (name : Bytes) (e : Entry) : Except Error Entry :=
  (l.locate s e name).map fun d => { e with dataOffset := some d }

theorem Entry.settled_eq_ok_iff {name : Bytes} {v : Entry} : e.settled l s name = .ok v ↔
    ∃ d, l.locate s e name = .ok d ∧ v = { e with dataOffset := some d } := by
  rw [settled]
  cases l.locate s e name with
  | error err => simp [Except.map]
  | ok d => simp [Except.map, eq_comm]

theorem Entry.settled_unlocated (name : Bytes) :
    e.unlocated.settled l s name = e.settled l s name := by
  have hlocate : l.locate s e.unlocated name = l.locate s e name :=
    Locator.locate_congr rfl rfl rfl
  rw [settled, settled, hlocate]
  rfl

theorem Entry.Sound.settled {names : NamePool} {d : UInt32} (h : e.Sound l s names)
    (hd : e.dataOffset = some d) : e.settled l s (names.get e.name) = .ok e := by
  have heq : { e with dataOffset := some d } = e := by rw [← hd]
  rw [Entry.settled, h.located d hd]
  show Except.ok { e with dataOffset := some d } = _
  rw [heq]

namespace Tree

/-- What resolving the file at a path comes to if no place is known. -/
def resolved (t : Tree) (l : Locator) (s : Stream) (path : String) : Except Error Entry :=
  match t.find? path with
  | none => .error (.fileNotFound path)
  | some e => e.settled l s (t.nameOf e)

/-- What validating entries in their order comes to if no place is known. -/
def validated (t : Tree) (l : Locator) (codec : Codec) (s : Stream) : Except Error Unit :=
  forM t.entries fun e => e.settled l s (t.nameOf e) >>= Entry.validate codec s

theorem resolved_unlocated (l : Locator) (s : Stream) (path : String) :
    t.unlocated.resolved l s path = t.resolved l s path := by
  have hfind : t.unlocated.find? path = (t.find? path).map Entry.unlocated := find?_map _ t path
  rw [resolved, resolved, hfind]
  cases t.find? path with
  | none => rfl
  | some e => exact e.settled_unlocated (t.nameOf e)

theorem validated_unlocated (l : Locator) (codec : Codec) (s : Stream) :
    t.unlocated.validated l codec s = t.validated l codec s := by
  have hentries : t.unlocated.entries = t.entries.map Entry.unlocated := by
    simp [entries, unlocated, toList_map]
  have hsettled : ∀ e : Entry, e.unlocated.settled l s (t.unlocated.nameOf e.unlocated) =
      e.settled l s (t.nameOf e) := fun e => e.settled_unlocated _
  rw [validated, validated, hentries]
  generalize t.entries = es
  induction es with
  | nil => rfl
  | cons e es ih => simp only [List.map_cons, List.forM_cons, ih, hsettled]

end Tree

namespace Index

variable {i j : Index} {p : Path} {options : Options}

/-! ## Whatever is kept -/

theorem Coherent.settle_fst (h : i.Coherent s) (he : (p, e) ∈ i.tree.toList) :
    (i.settle s p e).1 = e.settled i.locator s (i.tree.nameOf e) := by
  have hsound := h.entries p e he
  cases hd : e.dataOffset with
  | some d =>
    rw [Tree.nameOf, hsound.settled hd, settle, hd]
  | none =>
    rw [settle, hd, Entry.settled]
    cases i.locator.locate s e (i.tree.nameOf e) <;> rfl

theorem Coherent.resolve_fst (h : i.Coherent s) (path : String) :
    (i.resolve s path).1 = i.tree.resolved i.locator s path := by
  rw [resolve, Tree.resolved]
  cases hf : i.tree.find? path with
  | none => rfl
  | some e => exact h.settle_fst (mem_of_find? h.tree hf)

theorem Coherent.readStored_fst (h : i.Coherent s) (path : String) :
    (i.readStored s path).1 = i.tree.resolved i.locator s path >>= Entry.stored s := by
  rw [← h.resolve_fst, readStored]
  rcases i.resolve s path with ⟨err | e, j⟩ <;> rfl

theorem Coherent.readContent_fst (h : i.Coherent s) (path : String) :
    (i.readContent codec s path).1 = i.tree.resolved i.locator s path >>= fun e =>
      e.stored s >>= e.decode codec := by
  rw [← h.resolve_fst]
  rcases resolve_cases h path with ⟨-, hr⟩ | ⟨e, -, ⟨err, hr, -⟩ | ⟨d, j, hr, hj, hfj, -⟩⟩
  · simp only [readContent, hr]
    rfl
  · simp only [readContent, hr]
    rfl
  · have hstored := (stored_of_mem hj ((find?_eq_some_iff hj).mp hfj)).1
    rw [(read_of_resolve hj hr hfj codec).2, hr]
    show _ = Entry.stored s { e with dataOffset := some d } >>= Entry.decode codec _
    rw [hstored]
    rfl

theorem Coherent.validateEntries_fst {entries : List (Path × Entry)} (h : i.Coherent s)
    (hnd : (entries.map Prod.fst).Nodup) (hmem : ∀ x ∈ entries, x ∈ i.tree.toList) :
    (validateEntries codec s entries i).1 = forM (entries.map Prod.snd) fun e =>
      e.settled i.locator s (i.tree.nameOf e) >>= Entry.validate codec s := by
  -- Along the entries: those still to come are listed by the index that has settled the first one,
  -- which locates them alike.
  induction entries generalizing i with
  | nil => rfl
  | cons x entries ih =>
    obtain ⟨p, e⟩ := x
    obtain ⟨hx, hentries⟩ := List.forall_mem_cons.mp hmem
    rw [List.map_cons, List.nodup_cons] at hnd
    have hr := settle_reaches (s := s) hx
    have hkept := mem_settle (s := s) (e := e) h.tree hnd.1 hentries
    rw [List.map_cons, List.forM_cons, ← h.settle_fst hx, validateEntries]
    rcases settle_cases h hx with ⟨err, hs, -⟩ | ⟨d, j, hs, hj, -⟩ <;> rw [hs]
    · rfl
    · rw [hs] at hr hkept
      have hnames : j.tree.names = i.tree.names := hr.names
      have hrest := ih hj hnd.2 hkept
      simp only [hr.locator, Tree.nameOf, hnames] at hrest
      show _ = Entry.validate codec s { e with dataOffset := some d } >>= fun _ => forM _ _
      cases hv : Entry.validate codec s { e with dataOffset := some d } with
      | error err =>
        simp only [hv]
        rfl
      | ok u =>
        simp only [hv]
        exact hrest

theorem Coherent.validateAll_fst (h : i.Coherent s) (codec : Codec) :
    (i.validateAll codec s).1 = i.tree.validated i.locator codec s :=
  h.validateEntries_fst h.tree.nodup_paths fun _ hx => hx

/-! ## Whatever has been done -/

theorem Coherent.answers_eq (hi : i.Coherent s) (hj : j.Coherent s) (codec : Codec)
    (hlocator : j.locator = i.locator) (htree : j.tree.unlocated = i.tree.unlocated) :
    (∀ path, (j.resolve s path).1 = (i.resolve s path).1 ∧
      (j.readStored s path).1 = (i.readStored s path).1 ∧
      (j.readContent codec s path).1 = (i.readContent codec s path).1) ∧
    (j.validateAll codec s).1 = (i.validateAll codec s).1 := by
  have hresolved : ∀ path, j.tree.resolved j.locator s path = i.tree.resolved i.locator s path := by
    intro path
    rw [← Tree.resolved_unlocated, htree, Tree.resolved_unlocated, hlocator]
  refine ⟨fun path => ⟨?_, ?_, ?_⟩, ?_⟩
  · rw [hi.resolve_fst, hj.resolve_fst, hresolved]
  · rw [hi.readStored_fst, hj.readStored_fst, hresolved]
  · rw [hi.readContent_fst, hj.readContent_fst, hresolved]
  · rw [hi.validateAll_fst, hj.validateAll_fst, ← Tree.validated_unlocated, htree,
      Tree.validated_unlocated, hlocator]

/-- **What is kept never changes an answer.** An index of any level is used in any way, whether or
not the uses succeed. It then resolves and reads every file and validates all of them with the same
result as an index of the lowest level that has just been built, and every place that it keeps is
the one that locating finds. -/
theorem useAll_answers {options options' : Options} (h : build options codec s = .ok i)
    (hinit : options'.init = .basic) :
    ∃ k, build options' codec s = .ok k ∧ ∀ uses : List Use,
      let j := i.useAll codec s uses
      (∀ path, (j.resolve s path).1 = (k.resolve s path).1 ∧
        (j.readStored s path).1 = (k.readStored s path).1 ∧
        (j.readContent codec s path).1 = (k.readContent codec s path).1) ∧
      (j.validateAll codec s).1 = (k.validateAll codec s).1 ∧
      ∀ p e d, (p, e) ∈ j.tree.toList → e.dataOffset = some d →
        j.locator.locate s e (j.tree.nameOf e) = .ok d := by
  obtain ⟨k, hk⟩ := build_basic_of_build h hinit
  obtain ⟨hsame, htree⟩ := build_agree h hk
  refine ⟨k, hk, fun uses => ?_⟩
  have hcoherent := build_coherent h
  have hj := hcoherent.useAll codec uses
  have hr := useAll_reaches (s := s) hcoherent.tree codec uses
  have hlocator : k.locator = i.locator := by rw [locator, locator, hsame.1, hsame.2.1]
  -- Uses change nothing but places of payloads, and these are all that levels differ in.
  obtain ⟨hpaths, hall⟩ := (build_coherent hk).answers_eq hj codec
    (hr.locator.trans hlocator.symm) (hr.unlocated.trans htree.symm)
  exact ⟨hpaths, hall, fun p e d he hd => (hj.entries p e he).located d hd⟩

/-- A file is resolved like for the first time after its checksum has failed. -/
theorem useAll_answers_failed :
    let s := Stream.ofBytes (Packed.archive [Packed.plain [0x61] [1, 2, 3]] [])
    let codec : Codec := fun _ stored _ => .ok stored
    ∃ i k, build { init := .full } codec s = .ok i ∧ build {} codec s = .ok k ∧
      ((i.useAll codec s [.readContent "a", .resolve "b", .validateAll]).resolve s "A").1 =
        (k.resolve s "A").1 := by
  intro s codec
  obtain ⟨i, hi⟩ := exists_of_isOk (x := build { init := .full } codec s) (by decide +kernel)
  obtain ⟨k, hk, hanswers⟩ := useAll_answers hi (show ({} : Options).init = .basic from rfl)
  obtain ⟨hpaths, -⟩ := hanswers [.readContent "a", .resolve "b", .validateAll]
  exact ⟨i, k, hi, hk, (hpaths "A").1⟩

end Index

end PakIndex
