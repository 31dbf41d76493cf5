import PakIndex.Proofs.Index.Layout

/-!
# Sessions

* `Session`: what is found at the path of an archive, and the indexes that are open on it.
* `Session.Action`, `Session.step`, `Session.run`: opening, closing, using and flushing in any
  order.
* `Session.Writes`: the two kinds of action that change the file.
* `Session.Consistent.step`, `Session.Consistent.step_place`: what every action preserves, and what
  it changes.
* `Index.Obtained.clean`: an index that was opened for reading only never has changes.
* **`Session.run_guarded`**: what keeps an archive from being changed, in every session.
-/

namespace PakIndex

/-! ## Flags -/

namespace Index

variable {s : Stream} {i j : Index}

theorem Reaches.flags (h : Reaches s i j) : j.flags = i.flags ∨
    i.flags.readOnly = false ∧ j.flags = { i.flags with dirty := true } := by
  induction h with
  | refl => exact .inl rfl
  | locate _ _ _ _ ih => exact ih
  | mark _ hro ih =>
    rcases ih with h | ⟨hro', h⟩
    · rw [h] at hro
      exact .inr ⟨hro, by rw [h]⟩
    · exact .inr ⟨hro', by rw [h]⟩

theorem flags_flush (i : Index) (content : ByteArray) :
    (i.flush content).2.1.flags = i.flags ∨
      (i.flush content).2.1.flags = { i.flags with dirty := false } := by
  rcases flush_cases i content with
    ⟨-, hf⟩ | ⟨-, ⟨-, hf⟩ | ⟨-, ⟨-, hf⟩ | ⟨-, -, hf⟩ | ⟨-, hf⟩⟩⟩ <;> rw [hf]
  exacts [.inl rfl, .inl rfl, .inl rfl, .inl rfl, .inr rfl]

theorem content_flush (i : Index) (content : ByteArray) : (i.flush content).2.2 = content ∨
    i.flags.dirty = true ∧ i.flags.readOnly = false ∧ (i.flush content).1 = .ok () := by
  rcases flush_cases i content with
    ⟨-, hf⟩ | ⟨hro, ⟨-, hf⟩ | ⟨hdirty, ⟨-, hf⟩ | ⟨-, -, hf⟩ | ⟨-, hf⟩⟩⟩ <;> rw [hf]
  exacts [.inl rfl, .inl rfl, .inl rfl, .inl rfl, .inr ⟨hdirty, hro, rfl⟩]

theorem readOnly_flush (i : Index) (content : ByteArray) :
    (i.flush content).2.1.flags.readOnly = i.flags.readOnly := by
  rcases flags_flush i content with h | h <;> rw [h]

theorem readOnly_use (h : i.tree.WellFormed) (codec : Codec) (s : Stream) (u : Use) :
    (use codec s i u).flags.readOnly = i.flags.readOnly := by
  rcases (use_reaches (s := s) h codec u).flags with h | ⟨-, h⟩ <;> rw [h]

/-- **An index that was opened for reading only never has changes.** -/
theorem Obtained.clean (h : Obtained i) (hro : i.flags.readOnly = true) :
    i.flags.dirty = false := by
  induction h with
  | build h =>
    obtain ⟨headers, record, listing, es, -, -, rfl⟩ := build_eq_ok_iff.mp h
    rfl
  | create options => cases hro
  | memorize path _ ih => exact ih hro
  | use codec s u hi ih =>
    rcases (use_reaches (s := s) hi.laidOut.tree codec u).flags with h | ⟨hw, h⟩
    · rw [h] at hro ⊢
      exact ih hro
    · rw [h, hw] at hro
      cases hro
  | @flush i content _ ih =>
    rcases flags_flush i content with h | h
    · rw [h] at hro ⊢
      exact ih hro
    · rw [h]

theorem markDirty_of_readOnly (h : i.flags.readOnly = true) :
    i.markDirty = (.error .readOnly, i) := by
  rw [markDirty, if_pos h]

theorem flush_of_readOnly (h : i.flags.readOnly = true) (content : ByteArray) :
    i.flush content = (.error .readOnly, i, content) := by
  rw [flush, if_pos h]

theorem flush_of_clean (h : i.flags.dirty = false) (content : ByteArray) :
    (i.flush content).2 = (i, content) := by
  rcases flush_cases i content with ⟨-, hf⟩ | ⟨-, ⟨-, hf⟩ | ⟨hdirty, -⟩⟩
  · rw [hf]
  · rw [hf]
  · cases hdirty.symm.trans h

end Index

/-! ## Opening -/

namespace Place

variable {options : Options} {codec : Codec} {path : String} {place : Place} {i : Index}

/-- Whether a new archive is started at a place. -/
def Starts (options : Options) (place : Place) : Prop :=
  options.readOnly = false ∧ (place = .absent ∨
    ∃ content, place = .file content ∧ (options.createNew = true ∨ content.size = 0))

theorem writeOpening_eq_fresh_iff {createNew : Bool} : place.writeOpening createNew = .fresh ↔
    place = .absent ∨
      ∃ content, place = .file content ∧ (createNew = true ∨ content.size = 0) := by
  cases place with
  | noFolder => simp [writeOpening]
  | absent => simp [writeOpening]
  | folder => simp [writeOpening]
  | file content => cases createNew <;> simp [writeOpening]

theorem opening_eq_fresh_iff : place.opening options = .fresh ↔ place.Starts options := by
  unfold opening Starts
  by_cases hro : options.readOnly = true
  · rw [if_pos hro, hro]
    refine ⟨fun h => ?_, fun h => nomatch h.1⟩
    cases place <;> cases h
  · rw [if_neg hro, writeOpening_eq_fresh_iff]
    exact (and_iff_right (Bool.eq_false_of_not_eq_true hro)).symm

theorem afterOpening_of_starts (h : place.Starts options) :
    place.afterOpening options = .file .empty := by
  rw [afterOpening, opening_eq_fresh_iff.mpr h]

theorem afterOpening_of_not_starts (h : ¬ place.Starts options) :
    place.afterOpening options = place := by
  unfold afterOpening
  split
  · rename_i hopening
    exact absurd (opening_eq_fresh_iff.mp hopening) h
  · rfl

theorem open_createNew (h : options.readOnly = true) (b : Bool) :
    place.open { options with createNew := b } codec path = place.open options codec path := by
  have hopening : place.opening { options with createNew := b } = place.opening options := by
    rw [opening, opening, if_pos h]
    exact (if_pos h).symm
  simp only [Place.open, indexAt, afterOpening, hopening]
  rfl

theorem obtained_of_indexAt (h : place.indexAt options codec path = .ok i) :
    Index.Obtained i ∧ i.flags.readOnly = options.readOnly ∧
      ∃ content, place.afterOpening options = .file content := by
  unfold indexAt at h
  unfold afterOpening
  cases ho : place.opening options with
  | refused e =>
    rw [ho] at h
    cases h
  | existing content =>
    rw [ho] at h
    obtain ⟨k, hk, ⟨⟩⟩ := bind_eq_ok_iff.mp h
    obtain ⟨headers, record, listing, es, -, -, rfl⟩ :=
      Index.build_eq_ok_iff.mp hk
    exact ⟨(Index.Obtained.build hk).memorize _, rfl, content, Index.opening_existing ho⟩
  | fresh =>
    rw [ho] at h
    cases h
    have hwritable := (opening_eq_fresh_iff.mp ho).1
    exact ⟨(Index.Obtained.create options).memorize _, hwritable.symm, .empty, rfl⟩

theorem not_starts_of_error {e : Error} (h : place.indexAt options codec path = .error e) :
    ¬ place.Starts options := by
  intro hstarts
  rw [indexAt, opening_eq_fresh_iff.mpr hstarts] at h
  cases h

end Place

/-! ## Sessions -/

/-- What is found at the path of an archive, and the indexes that are open on it. -/
structure Session where
  place : Place
  indexes : List Index := []

namespace Session

/-- What is done to an archive. To open it anew is to close an index and to open the archive. -/
inductive Action
  | openIndex (options : Options) (codec : Codec) (path : String)
  | closeIndex (k : Nat)
  | useIndex (k : Nat) (codec : Codec) (u : Index.Use)
  | flushIndex (k : Nat)

/-- The bytes of the file at the path. -/
def content (s : Session) : ByteArray := s.place.content?.getD .empty

/-- The session after an action, whether or not it succeeds. Nothing is done to an index that is not
there. -/
def step (s : Session) : Action → Session
  | .openIndex options codec path =>
    match s.place.open options codec path with
    | (.error _, place) => { s with place }
    | (.ok i, place) => { place, indexes := s.indexes ++ [i] }
  | .closeIndex k => { s with indexes := s.indexes.eraseIdx k }
  | .useIndex k codec u =>
    match s.indexes[k]? with
    | none => s
    | some i => { s with indexes := s.indexes.set k (i.use codec (.ofByteArray s.content) u) }
  | .flushIndex k =>
    match s.indexes[k]? with
    | none => s
    | some i =>
      let (_, i, content) := i.flush s.content
      { place := .file content, indexes := s.indexes.set k i }

/-- The session after a sequence of actions. -/
def run (s : Session) (actions : List Action) : Session := actions.foldl step s

/-- The actions that change the file, and what they leave at its path: a new archive is started, or
changes are written back. -/
inductive Writes (s : Session) : Action → Place → Prop
  | start {options : Options} {codec : Codec} {path : String} :
    s.place.Starts options → s.Writes (.openIndex options codec path) (.file .empty)
  | flush {k : Nat} {i j : Index} {content : ByteArray} :
    s.indexes[k]? = some i → i.flags.dirty = true → i.flags.readOnly = false →
      i.flush s.content = (.ok (), j, content) → s.Writes (.flushIndex k) (.file content)

/-- Whether the indexes of a session have come about by opening, using and flushing them, and are
open on a file. -/
structure Consistent (s : Session) : Prop where
  obtained : ∀ i ∈ s.indexes, Index.Obtained i
  file : ∀ i ∈ s.indexes, ∃ content, s.place = .file content

variable {s : Session} {i j : Index} {k : Nat} {place : Place}

/-! ## One action -/

theorem set_indexes (hi : s.indexes[k]? = some i) : s.indexes.set k i = s.indexes := by
  obtain ⟨hk, rfl⟩ := List.getElem?_eq_some_iff.mp hi
  exact List.set_getElem_self hk

theorem map_readOnly_set (hi : s.indexes[k]? = some i)
    (hj : j.flags.readOnly = i.flags.readOnly) :
    (s.indexes.set k j).map (·.flags.readOnly) = s.indexes.map (·.flags.readOnly) := by
  rw [List.map_set, hj, ← List.map_set, set_indexes hi]

theorem step_openIndex (s : Session) (options : Options) (codec : Codec) (path : String) :
    (s.step (.openIndex options codec path)).place = s.place.afterOpening options ∧
      ((s.step (.openIndex options codec path)).indexes = s.indexes ∨
        ∃ i, s.place.indexAt options codec path = .ok i ∧
          (s.step (.openIndex options codec path)).indexes = s.indexes ++ [i]) := by
  simp only [step, Place.open]
  cases hi : s.place.indexAt options codec path with
  | error e => exact ⟨rfl, .inl rfl⟩
  | ok i => exact ⟨rfl, .inr ⟨i, rfl, rfl⟩⟩

theorem step_useIndex (hi : s.indexes[k]? = some i) (codec : Codec) (u : Index.Use) :
    s.step (.useIndex k codec u) =
      { s with indexes := s.indexes.set k (i.use codec (.ofByteArray s.content) u) } := by
  simp only [step, hi]

theorem step_flushIndex (hi : s.indexes[k]? = some i) : s.step (.flushIndex k) =
    ⟨.file (i.flush s.content).2.2, s.indexes.set k (i.flush s.content).2.1⟩ := by
  simp only [step, hi]

theorem step_of_absent (h : s.indexes[k]? = none) : (∀ codec u, s.step (.useIndex k codec u) = s) ∧
    s.step (.flushIndex k) = s := by
  simp only [step, h, implies_true, and_self]

namespace Consistent

theorem place_eq (h : s.Consistent) (hi : s.indexes[k]? = some i) : s.place = .file s.content := by
  obtain ⟨content, hplace⟩ := h.file i (List.mem_of_getElem? hi)
  rw [Session.content, hplace]
  rfl

theorem set (h : s.Consistent) (hj : Index.Obtained j)
    (hplace : ∃ content, place = .file content) : Consistent ⟨place, s.indexes.set k j⟩ := by
  refine ⟨fun i hi => ?_, fun _ _ => hplace⟩
  rcases List.mem_or_eq_of_mem_set hi with hi | rfl
  · exact h.obtained i hi
  · exact hj

/-- **Every action preserves this**, whether or not it succeeds. -/
theorem step (h : s.Consistent) (a : Action) : (s.step a).Consistent := by
  cases a with
  | openIndex options codec path =>
    obtain ⟨hplace, hindexes⟩ := step_openIndex s options codec path
    have hfile : ∀ i ∈ s.indexes, ∃ content, s.place.afterOpening options = .file content := by
      intro i hi
      by_cases hstarts : s.place.Starts options
      · exact ⟨_, Place.afterOpening_of_starts hstarts⟩
      · rw [Place.afterOpening_of_not_starts hstarts]
        exact h.file i hi
    rcases hindexes with hindexes | ⟨i, hi, hindexes⟩ <;> constructor <;> rw [hindexes]
    · exact h.obtained
    · rw [hplace]
      exact hfile
    · obtain ⟨hobtained, -⟩ := Place.obtained_of_indexAt hi
      exact List.forall_mem_append.mpr ⟨h.obtained, List.forall_mem_singleton.mpr hobtained⟩
    · obtain ⟨-, -, hfile⟩ := Place.obtained_of_indexAt hi
      rw [hplace]
      exact fun _ _ => hfile
  | closeIndex k =>
    exact ⟨fun i hi => h.obtained i (List.mem_of_mem_eraseIdx hi),
      fun i hi => h.file i (List.mem_of_mem_eraseIdx hi)⟩
  | useIndex k codec u =>
    cases hi : s.indexes[k]? with
    | none => rwa [(step_of_absent hi).1]
    | some i =>
      have hmem := List.mem_of_getElem? hi
      rw [step_useIndex hi]
      exact h.set ((h.obtained i hmem).use codec _ u) (h.file i hmem)
  | flushIndex k =>
    cases hi : s.indexes[k]? with
    | none => rwa [(step_of_absent hi).2]
    | some i =>
      rw [step_flushIndex hi]
      exact h.set ((h.obtained i (List.mem_of_getElem? hi)).flush _) ⟨_, rfl⟩

theorem step_flushIndex_of_clean (h : s.Consistent) (hi : s.indexes[k]? = some i)
    (hclean : i.flags.dirty = false) : s.step (.flushIndex k) = s := by
  rw [step_flushIndex hi, Index.flush_of_clean hclean, set_indexes hi, ← h.place_eq hi]

/-- **What an action may change**: the file stays as it is unless the action is one that writes. -/
theorem step_place (h : s.Consistent) (a : Action) :
    (s.step a).place = s.place ∨ s.Writes a (s.step a).place := by
  cases a with
  | openIndex options codec path =>
    rw [(step_openIndex s options codec path).1]
    by_cases hstarts : s.place.Starts options
    · rw [Place.afterOpening_of_starts hstarts]
      exact .inr (.start hstarts)
    · exact .inl (Place.afterOpening_of_not_starts hstarts)
  | closeIndex k => exact .inl rfl
  | useIndex k codec u =>
    cases hi : s.indexes[k]? with
    | none =>
      rw [(step_of_absent hi).1]
      exact .inl rfl
    | some i =>
      rw [step_useIndex hi]
      exact .inl rfl
  | flushIndex k =>
    cases hi : s.indexes[k]? with
    | none =>
      rw [(step_of_absent hi).2]
      exact .inl rfl
    | some i =>
      rw [step_flushIndex hi]
      rcases Index.content_flush i s.content with hkept | ⟨hdirty, hro, hok⟩
      · rw [hkept]
        exact .inl (h.place_eq hi).symm
      · exact .inr (.flush hi hdirty hro (Prod.ext hok rfl))

end Consistent

theorem place_of_writes {a : Action} (h : s.Writes a place) : (s.step a).place = place := by
  cases h with
  | start hstarts => rw [(step_openIndex s _ _ _).1, Place.afterOpening_of_starts hstarts]
  | flush hi _ _ hf => rw [step_flushIndex hi, hf]

/-! ## All actions -/

/-- **Every run preserves this**. -/
theorem Consistent.run (h : s.Consistent) (actions : List Action) : (s.run actions).Consistent := by
  induction actions generalizing s with
  | nil => exact h
  | cons a actions ih => exact ih (h.step a)

theorem Consistent.run_place (h : s.Consistent) {actions : List Action}
    (hquiet : ∀ done a rest, actions = done ++ a :: rest → ∀ place, ¬ (s.run done).Writes a place) :
    (s.run actions).place = s.place := by
  induction actions generalizing s with
  | nil => rfl
  | cons a actions ih =>
    have hfirst := (h.step_place a).resolve_right (hquiet [] a actions rfl _)
    refine (ih (h.step a) fun done b rest heq => ?_).trans hfirst
    exact hquiet (a :: done) b rest (congrArg (a :: ·) heq)

/-- What keeps the file of a session from being changed. -/
structure Guarded (s : Session) : Prop where
  /-- An action leaves the file as it is unless it starts a new archive or writes changes back. -/
  place_step : ∀ a, (s.step a).place = s.place ∨ s.Writes a (s.step a).place
  place_of_writes : ∀ a place, s.Writes a place → (s.step a).place = place
  /-- An index that is for reading only has no changes, and refuses to get or to write some. -/
  readOnly : ∀ i ∈ s.indexes, i.flags.readOnly = true → i.flags.dirty = false ∧
    i.markDirty = (.error .readOnly, i) ∧
    ∀ content, i.flush content = (.error .readOnly, i, content)
  /-- An index is for reading only if it was opened so, and stays so. -/
  readOnly_open : ∀ options codec path i, s.place.indexAt options codec path = .ok i →
    i.flags.readOnly = options.readOnly
  readOnly_use : ∀ k codec u, (s.step (.useIndex k codec u)).indexes.map (·.flags.readOnly) =
    s.indexes.map (·.flags.readOnly)
  readOnly_flush : ∀ k, (s.step (.flushIndex k)).indexes.map (·.flags.readOnly) =
    s.indexes.map (·.flags.readOnly)
  /-- To open for reading only starts no archive, even if a new one is asked for. -/
  createNew : ∀ options codec path create, options.readOnly = true →
    (s.step (.openIndex options codec path)).place = s.place ∧
    s.step (.openIndex { options with createNew := create } codec path) =
      s.step (.openIndex options codec path)
  /-- To flush an index without changes does nothing. -/
  clean : ∀ k i, s.indexes[k]? = some i → i.flags.dirty = false → s.step (.flushIndex k) = s
  /-- To open a file with content changes nothing unless a new archive is asked for. -/
  existing : ∀ options codec path content, s.place = .file content → content.size ≠ 0 →
    options.createNew = false → (s.step (.openIndex options codec path)).place = s.place
  /-- An opening that fails changes nothing. -/
  failed : ∀ options codec path e, s.place.indexAt options codec path = .error e →
    s.step (.openIndex options codec path) = s

theorem Consistent.guarded (h : s.Consistent) : s.Guarded where
  place_step := h.step_place
  place_of_writes a place hw := Session.place_of_writes hw
  readOnly i hi hro := ⟨(h.obtained i hi).clean hro, Index.markDirty_of_readOnly hro,
    Index.flush_of_readOnly hro⟩
  readOnly_open options codec path i hi := (Place.obtained_of_indexAt hi).2.1
  readOnly_use k codec u := by
    cases hi : s.indexes[k]? with
    | none => rw [(step_of_absent hi).1]
    | some i =>
      have htree := (h.obtained i (List.mem_of_getElem? hi)).laidOut.tree
      rw [step_useIndex hi]
      exact map_readOnly_set hi (Index.readOnly_use htree codec _ u)
  readOnly_flush k := by
    cases hi : s.indexes[k]? with
    | none => rw [(step_of_absent hi).2]
    | some i =>
      rw [step_flushIndex hi]
      exact map_readOnly_set hi (Index.readOnly_flush i _)
  createNew options codec path create hro := by
    have hstarts : ¬ s.place.Starts options := fun h => absurd hro (by rw [h.1]; decide)
    refine ⟨?_, ?_⟩
    · rw [(step_openIndex s options codec path).1, Place.afterOpening_of_not_starts hstarts]
    · simp only [Session.step, Place.open_createNew hro]
  clean k i hi hclean := h.step_flushIndex_of_clean hi hclean
  existing options codec path content hplace hsize hnew := by
    rw [(step_openIndex s options codec path).1]
    refine Place.afterOpening_of_not_starts ?_
    rintro ⟨-, habsent | ⟨content', hplace', hnew' | hsize'⟩⟩
    · cases hplace.symm.trans habsent
    · cases hnew.symm.trans hnew'
    · cases hplace.symm.trans hplace'
      exact hsize hsize'
  failed options codec path e he := by
    have hplace := Place.afterOpening_of_not_starts (Place.not_starts_of_error he)
    simp only [Session.step, Place.open, he, hplace]

/-- **Only two kinds of action change an archive**: to open it when a new archive is asked for or
there is none or an empty file, which leaves an empty file, and to flush an index that has changes
and was not opened for reading only. In every session, whatever has been done so far and however it
has ended, the file is guarded against all others, so that it stays as it is as long as none of the
two is done. -/
theorem run_guarded (place : Place) (actions : List Action) :
    let s := run { place } actions
    s.Guarded ∧ ∀ more : List Action,
      (∀ done a rest, more = done ++ a :: rest → ∀ place, ¬ (s.run done).Writes a place) →
        (s.run more).place = s.place := by
  have hopened : Consistent { place } :=
    ⟨fun _ hi => absurd hi List.not_mem_nil, fun _ hi => absurd hi List.not_mem_nil⟩
  have hconsistent := hopened.run actions
  exact ⟨hconsistent.guarded, fun more hquiet => hconsistent.run_place hquiet⟩

end Session

end PakIndex
