import PakIndex.Proofs.Index.Use
import PakIndex.Proofs.Tree.Entrywise

/-!
# What uses may change

* `Index.Reaches`: what an index may become over a stream that is only read: payloads are located,
  and the index is marked as changed.
* **`Index.use_reaches`**, **`Index.useAll_reaches`**: no use does anything else, however it ends.
* `Index.Reaches.unlocated`: apart from the places of payloads the tree stays as it is.
-/

namespace PakIndex.Index

variable {s : Stream} {codec : Codec} {i j k : Index} {e : Entry} {p : Path} {d : UInt32}

/-- What an index may become over a stream that is only read. -/
inductive Reaches (s : Stream) (i : Index) : Index → Prop
  | refl : Reaches s i i
  /-- A payload without a place gets the one that locating finds. -/
  | locate {j : Index} {p : Path} {e : Entry} {d : UInt32} :
    Reaches s i j → (p, e) ∈ j.tree.toList → e.dataOffset = none →
      j.locator.locate s e (j.tree.nameOf e) = .ok d → Reaches s i (j.located p d)
  | mark {j : Index} :
    Reaches s i j → j.flags.readOnly = false → Reaches s i { j with flags.dirty := true }

namespace Reaches

theorem trans (h : Reaches s i j) (h' : Reaches s j k) : Reaches s i k := by
  induction h' with
  | refl => exact h
  | locate _ he hd hl ih => exact ih.locate he hd hl
  | mark _ hro ih => exact ih.mark hro

theorem preserves {P : Index → Prop} (h : Reaches s i j) (hi : P i)
    (hlocate : ∀ j p e d, P j → (p, e) ∈ j.tree.toList →
      j.locator.locate s e (j.tree.nameOf e) = .ok d → P (j.located p d))
    (hmark : ∀ j, P j → P { j with flags.dirty := true }) : P j := by
  induction h with
  | refl => exact hi
  | locate _ he _ hl ih => exact hlocate _ _ _ _ ih he hl
  | mark _ _ ih => exact hmark _ ih

theorem wellFormed (h : Reaches s i j) (hi : i.tree.WellFormed) : j.tree.WellFormed :=
  h.preserves (P := fun j => j.tree.WellFormed) hi (fun _ p _ _ hj _ _ => hj.modify p fun _ => rfl)
    fun _ hj => hj

theorem locator (h : Reaches s i j) : j.locator = i.locator :=
  h.preserves (P := fun j => j.locator = i.locator) rfl (fun _ _ _ _ hj _ _ => hj) fun _ hj => hj

theorem names (h : Reaches s i j) : j.tree.names = i.tree.names :=
  h.preserves (P := fun j => j.tree.names = i.tree.names) rfl (fun _ _ _ _ hj _ _ => hj)
    fun _ hj => hj

/-- **Apart from the places of payloads** the tree stays as it is. -/
theorem unlocated (h : Reaches s i j) : j.tree.unlocated = i.tree.unlocated := by
  apply h.preserves (P := fun j => j.tree.unlocated = i.tree.unlocated) rfl
  · intro j p e d hj _ _
    have hkept : ∀ e : Entry, { e with dataOffset := some d }.unlocated = e.unlocated :=
      fun _ => rfl
    rw [← hj]
    exact Tree.map_modify_of_eq hkept p
  · intro j hj
    exact hj

end Reaches

/-! ## Every use -/

theorem mem_of_find? (h : i.tree.WellFormed) {path : String}
    (hf : i.tree.find? path = some e) : (querySegments path, e) ∈ i.tree.toList :=
  h.find?_eq_some_iff.mp hf

theorem settle_reaches (he : (p, e) ∈ i.tree.toList) : Reaches s i (i.settle s p e).2 := by
  unfold settle
  cases hd : e.dataOffset with
  | some d => exact .refl
  | none =>
    cases hl : i.locator.locate s e (i.tree.nameOf e) with
    | error err => exact .refl
    | ok d => exact Reaches.refl.locate he hd hl

theorem resolve_reaches (h : i.tree.WellFormed) (path : String) :
    Reaches s i (i.resolve s path).2 := by
  unfold resolve
  cases hf : i.tree.find? path with
  | none => exact .refl
  | some e => exact settle_reaches (mem_of_find? h hf)

theorem readStored_reaches (h : i.tree.WellFormed) (path : String) :
    Reaches s i (i.readStored s path).2 := by
  have hr := resolve_reaches (s := s) h path
  unfold readStored
  split <;> rename_i heq <;> rw [heq] at hr <;> exact hr

theorem readContent_reaches (h : i.tree.WellFormed) (codec : Codec) (path : String) :
    Reaches s i (i.readContent codec s path).2 := by
  have hr := resolve_reaches (s := s) h path
  unfold readContent
  split <;> rename_i j heq <;> rw [heq] at hr
  · exact hr
  · have hr' := hr.trans (readStored_reaches (hr.wellFormed h) path)
    split <;> rename_i hstored <;> rw [hstored] at hr' <;> exact hr'

theorem validateEntries_reaches {entries : List (Path × Entry)} (h : i.tree.WellFormed)
    (hnd : (entries.map Prod.fst).Nodup) (hmem : ∀ x ∈ entries, x ∈ i.tree.toList) :
    Reaches s i (validateEntries codec s entries i).2 := by
  -- Along the entries: their paths differ, so that those still to come stay listed.
  induction entries generalizing i with
  | nil => exact .refl
  | cons x entries ih =>
    obtain ⟨p, e⟩ := x
    obtain ⟨hx, hentries⟩ := List.forall_mem_cons.mp hmem
    rw [List.map_cons, List.nodup_cons] at hnd
    have hr := settle_reaches (s := s) hx
    have hkept := mem_settle (s := s) (e := e) h hnd.1 hentries
    rw [validateEntries]
    split <;> rename_i j heq <;> rw [heq] at hr hkept
    · exact hr
    · split
      · exact hr
      · exact hr.trans (ih (hr.wellFormed h) hnd.2 hkept)

/-- **What a use may change**: it locates payloads or marks the index, however it ends. -/
theorem use_reaches (h : i.tree.WellFormed) (codec : Codec) (u : Use) :
    Reaches s i (Index.use codec s i u) := by
  cases u with
  | find _ => exact .refl
  | folder _ => exact .refl
  | entries => exact .refl
  | resolve path => exact resolve_reaches h path
  | readStored path => exact readStored_reaches h path
  | readContent path => exact readContent_reaches h codec path
  | validateAll => exact validateEntries_reaches h h.nodup_paths fun _ hx => hx
  | markDirty =>
    show Reaches s i i.markDirty.2
    unfold Index.markDirty
    by_cases hro : i.flags.readOnly = true
    · rw [if_pos hro]
      exact .refl
    · rw [if_neg hro]
      exact Reaches.refl.mark (Bool.eq_false_of_not_eq_true hro)

/-- **What a sequence of uses may change.** -/
theorem useAll_reaches (h : i.tree.WellFormed) (codec : Codec) (uses : List Use) :
    Reaches s i (Index.useAll codec s i uses) := by
  induction uses generalizing i with
  | nil => exact .refl
  | cons u uses ih =>
    have hr := use_reaches (s := s) h codec u
    exact hr.trans (ih (hr.wellFormed h))

end PakIndex.Index
