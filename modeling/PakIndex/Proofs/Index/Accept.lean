import PakIndex.Index.Build
import PakIndex.Proofs.Directory
import PakIndex.Proofs.Entry.Located
import PakIndex.Proofs.Entry.Sound
import PakIndex.Proofs.Tree.InsertAll

/-!
# Accepting listed files

* `Index.accept_eq_ok_iff`: a listed file is accepted if it is placed and, where that is asked for,
  validated.
* **`Index.place_sound`**: the entry of a sound listed file is sound.
* **`Index.accept_of_locate`**: which files are accepted.
* `Index.accept_error`: how accepting a listed file fails.
* `Index.acceptAll_eq_ok_iff`, `Index.acceptAll_error`: all files are accepted one by one.
-/

namespace PakIndex.Index

variable {a : Policy} {codec : Codec} {s : Stream} {names : NamePool} {f : ListedFile} {e : Entry}
  {err : Error}

theorem place_ok (h : place a s names f = .ok e) :
    a.locator.check (Entry.ofListed f) (names.get f.name) = .ok () ∧
      ((∃ d, a.isEager ∧ (Entry.ofListed f).compressedSize ≠ 0 ∧
          a.locator.locate s (Entry.ofListed f) (names.get f.name) = .ok d ∧
          e = { Entry.ofListed f with dataOffset := some d }) ∨
        ¬ (a.isEager ∧ (Entry.ofListed f).compressedSize ≠ 0) ∧ e = Entry.ofListed f) := by
  obtain ⟨u, hc, h⟩ := bind_eq_ok_iff.mp h
  refine ⟨hc, ?_⟩
  by_cases he : a.isEager ∧ (Entry.ofListed f).compressedSize ≠ 0
  · rw [if_pos he] at h
    obtain ⟨d, hd, ⟨⟩⟩ := bind_eq_ok_iff.mp h
    exact .inl ⟨d, he.1, he.2, hd, rfl⟩
  · rw [if_neg he] at h
    cases h
    exact .inr ⟨he, rfl⟩

theorem place_of_eager {d : UInt32}
    (hc : a.locator.check (Entry.ofListed f) (names.get f.name) = .ok ())
    (he : a.isEager = true ∧ (Entry.ofListed f).compressedSize ≠ 0)
    (hd : a.locator.locate s (Entry.ofListed f) (names.get f.name) = .ok d) :
    place a s names f = .ok { Entry.ofListed f with dataOffset := some d } := by
  refine bind_eq_ok_iff.mpr ⟨(), hc, ?_⟩
  rw [if_pos he]
  exact bind_eq_ok_iff.mpr ⟨d, hd, rfl⟩

theorem place_of_lazy (hc : a.locator.check (Entry.ofListed f) (names.get f.name) = .ok ())
    (he : ¬ (a.isEager = true ∧ (Entry.ofListed f).compressedSize ≠ 0)) :
    place a s names f = .ok (Entry.ofListed f) := by
  refine bind_eq_ok_iff.mpr ⟨(), hc, ?_⟩
  rw [if_neg he]
  rfl

/-- **The entry of a sound listed file is sound**, and says what the directory says. -/
theorem place_sound (hf : f.Sound names) (h : place a s names f = .ok e) :
    e.Sound a.locator s names ∧ e = { Entry.ofListed f with dataOffset := e.dataOffset } := by
  obtain ⟨hc, ⟨d, -, -, hd, rfl⟩ | ⟨he, rfl⟩⟩ := place_ok h
  · refine ⟨⟨hf.held, hf.normal, hf.short, hf.last, hf.method, hf.version, hc, ?_, ?_⟩, rfl⟩
    · rintro _ ⟨⟩
      exact hd
    · exact fun _ _ => rfl
  · refine ⟨⟨hf.held, hf.normal, hf.short, hf.last, hf.method, hf.version, hc, nofun, ?_⟩, rfl⟩
    intro henc hne
    refine absurd ⟨?_, hne⟩ he
    rw [Policy.isEager, henc, Bool.true_or]

theorem place_error
    (hroom : a.locator.directoryOffset.toNat + 46 + (names.get f.name).length ≤ s.size)
    (h : place a s names f = .error err) : err.class = .crossValidation := by
  rcases bind_eq_error_iff.mp h with h | ⟨u, hc, h⟩
  · exact Locator.check_error h
  · have hoffset : (Entry.ofListed f).headerOffset.toNat ≤ a.locator.directoryOffset.toNat :=
      (Locator.check_eq_ok_iff.mp hc).1
    split at h
    · rcases bind_eq_error_iff.mp h with h | ⟨d, -, h⟩
      · exact Locator.locate_error (by change _ + 30 + (names.get f.name).length ≤ _; omega) h
      · cases h
    · cases h

theorem accept_eq_ok_iff : accept a codec s names f = .ok e ↔
    place a s names f = .ok e ∧ (validates a e = true → e.validate codec s = .ok ()) := by
  rw [accept, bind_eq_ok_iff]
  constructor
  · rintro ⟨e', he, h⟩
    by_cases hv : validates a e' = true
    · rw [if_pos hv] at h
      obtain ⟨u, hu, ⟨⟩⟩ := bind_eq_ok_iff.mp h
      exact ⟨he, fun _ => hu⟩
    · rw [if_neg hv] at h
      cases h
      exact ⟨he, fun hv' => absurd hv' hv⟩
  · rintro ⟨he, h⟩
    refine ⟨e, he, ?_⟩
    by_cases hv : validates a e = true
    · rw [if_pos hv]
      exact bind_eq_ok_iff.mpr ⟨(), h hv, rfl⟩
    · rw [if_neg hv]
      rfl

theorem accept_ok (h : accept a codec s names f = .ok e) : place a s names f = .ok e :=
  (accept_eq_ok_iff.mp h).1

theorem accept_eq_place (h : a.init ≠ .validate) :
    accept a codec s names f = place a s names f := by
  have hv : ∀ e, validates a e = false := fun e => by
    rw [validates, beq_false_of_ne h, Bool.false_and]
  simp only [accept, hv]
  cases place a s names f <;> rfl

/-- **A listed file is accepted** if it meets the conditions on every entry and, where its payload
is located at once, a place is found for it. -/
theorem accept_of_locate {o : Option UInt32} (hinit : a.init ≠ .validate)
    (hcheck : a.locator.check (Entry.ofListed f) (names.get f.name) = .ok ())
    (heager : a.isEager = true → (Entry.ofListed f).compressedSize ≠ 0 →
      ∃ d, o = some d ∧ a.locator.locate s (Entry.ofListed f) (names.get f.name) = .ok d)
    (hlazy : ¬ (a.isEager = true ∧ (Entry.ofListed f).compressedSize ≠ 0) → o = none) :
    accept a codec s names f = .ok { Entry.ofListed f with dataOffset := o } := by
  rw [accept_eq_place hinit]
  by_cases he : a.isEager = true ∧ (Entry.ofListed f).compressedSize ≠ 0
  · obtain ⟨d, rfl, hd⟩ := heager he.1 he.2
    exact place_of_eager hcheck he hd
  · rw [hlazy he]
    exact place_of_lazy hcheck he

/-- **Accepting a listed file fails** because it contradicts its local header or the layout of the
archive, or because its payload is broken if that is to be looked at. -/
theorem accept_error
    (hroom : a.locator.directoryOffset.toNat + 46 + (names.get f.name).length ≤ s.size)
    (h : accept a codec s names f = .error err) :
    err.class = .crossValidation ∨ a.init = .validate ∧ err.class = .diagnostic := by
  rcases bind_eq_error_iff.mp h with h | ⟨e, he, h⟩
  · exact .inl (place_error hroom h)
  · split at h
    · rename_i hv
      simp only [validates, Bool.and_eq_true, beq_iff_eq, bne_iff_ne] at hv
      rcases bind_eq_error_iff.mp h with h | ⟨u, -, h⟩
      · obtain ⟨-, ⟨d, -, -, hd, rfl⟩ | ⟨hlazy, rfl⟩⟩ := place_ok he
        · have hend := Locator.locate_bound hd
          refine .inr ⟨hv.1, Entry.validate_error rfl ?_ h⟩
          show d.toNat + (Entry.ofListed f).compressedSize ≤ _
          omega
        · refine absurd ⟨?_, hv.2⟩ hlazy
          rw [Policy.isEager, hv.1]
          exact Bool.or_true _
      · cases h
    · cases h

/-! ## All files -/

variable {files : List ListedFile} {t t' : Tree}

/-- **All files are accepted one by one**, and their entries are put in this order. -/
theorem acceptAll_eq_ok_iff : acceptAll a codec s files t = .ok t' ↔
    ∃ es, List.Forall₂ (fun f e => accept a codec s t.names f = .ok e) files es ∧
      t' = t.insertAll es := by
  induction files generalizing t with
  | nil =>
    constructor
    · rintro ⟨⟩
      exact ⟨[], .nil, rfl⟩
    · rintro ⟨_, ⟨⟩, rfl⟩
      rfl
  | cons f files ih =>
    rw [acceptAll]
    constructor
    · intro h
      split at h
      · cases h
      · rename_i e he
        obtain ⟨es, hes, rfl⟩ := ih.mp h
        rw [Tree.names_insert] at hes
        exact ⟨e :: es, .cons he hes, rfl⟩
    · rintro ⟨_, _ | ⟨he, hes⟩, rfl⟩
      rw [he]
      refine ih.mpr ⟨_, ?_, rfl⟩
      rw [Tree.names_insert]
      exact hes

theorem acceptAll_error (h : acceptAll a codec s files t = .error err) :
    ∃ f ∈ files, accept a codec s t.names f = .error err := by
  induction files generalizing t with
  | nil => cases h
  | cons f files ih =>
    rw [acceptAll] at h
    split at h
    · rename_i he
      cases h
      exact ⟨f, List.mem_cons_self, he⟩
    · obtain ⟨f', hf', he'⟩ := ih h
      rw [Tree.names_insert] at he'
      exact ⟨f', List.mem_cons_of_mem _ hf', he'⟩

theorem exists_accepted {α : Type} {R : α → ListedFile → Prop} {Q : α → Entry → Prop} {xs : List α}
    (hfiles : List.Forall₂ R xs files)
    (hacc : ∀ x ∈ xs, ∀ f, R x f → ∃ e, accept a codec s names f = .ok e ∧ Q x e) :
    ∃ es, List.Forall₂ (fun f e => accept a codec s names f = .ok e) files es ∧
      List.Forall₂ Q xs es := by
  induction hfiles with
  | nil => exact ⟨[], .nil, .nil⟩
  | cons hf _ ih =>
    obtain ⟨hx, hxs⟩ := List.forall_mem_cons.mp hacc
    obtain ⟨e, he, hq⟩ := hx _ hf
    obtain ⟨es, hes, hqs⟩ := ih hxs
    exact ⟨e :: es, .cons he hes, .cons hq hqs⟩

end PakIndex.Index
