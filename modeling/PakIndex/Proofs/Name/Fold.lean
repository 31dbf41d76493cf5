import PakIndex.Name

/-!
# Normalized names

* `normalizeName_idem`, `isSeparator_normalizeByte`: normalizing is done once, and keeps separators.
* `segments_normalizeName`: the segments of a normalized name are the normalized segments.
* `segments_ne_nil`: a name that does not end in a separator has segments.
* `segments_of_plain`: a name without separators is its only segment.
* `namesMatch_iff`: the comparison of names is equality of normalized names.
-/

namespace PakIndex

/-! ## Bytes -/

theorem normalizeByte_idem (b : UInt8) : normalizeByte (normalizeByte b) = normalizeByte b := by
  grind [normalizeByte, separator, altSeparator]

theorem isSeparator_normalizeByte (b : UInt8) : isSeparator (normalizeByte b) = isSeparator b := by
  grind [normalizeByte, isSeparator, separator, altSeparator]

/-! ## Names -/

theorem length_normalizeName (name : Bytes) : (normalizeName name).length = name.length :=
  List.length_map _

theorem length_eq_of_normalizeName {a b : Bytes} (h : normalizeName a = normalizeName b) :
    a.length = b.length := by
  rw [← length_normalizeName, h, length_normalizeName]

theorem normalizeName_append (a b : Bytes) :
    normalizeName (a ++ b) = normalizeName a ++ normalizeName b :=
  List.map_append

theorem normalizeName_idem (name : Bytes) :
    normalizeName (normalizeName name) = normalizeName name := by
  rw [normalizeName, normalizeName, List.map_map]
  exact List.map_congr_left fun b _ => normalizeByte_idem b

theorem namesMatch_iff {a b : Bytes} :
    namesMatch a b = true ↔ normalizeName a = normalizeName b := by
  unfold namesMatch normalizeName
  induction a generalizing b with
  | nil => cases b <;> simp
  | cons x a ih =>
    cases b with
    | nil => simp
    | cons y b =>
      rw [List.map_cons, List.map_cons, List.cons.injEq, ← ih]
      simp only [List.length_cons, List.zip_cons_cons, List.all_cons, Bool.and_eq_true, beq_iff_eq,
        Nat.add_right_cancel_iff]
      exact and_left_comm

/-! ## Segments -/

theorem segmentsAfter_normalizeName (bs run : Bytes) :
    segmentsAfter (normalizeName run) (normalizeName bs) =
      (segmentsAfter run bs).map normalizeName := by
  have hrun : ∀ (run : Bytes) (rest : List Bytes),
      consRun (normalizeName run) (rest.map normalizeName) =
        (consRun run rest).map normalizeName := by
    intro run rest
    cases run with
    | nil => rfl
    | cons x run => simp [consRun, normalizeName, List.map_reverse]
  induction bs generalizing run with
  | nil => exact hrun run []
  | cons b bs ih =>
    show segmentsAfter (normalizeName run) (normalizeByte b :: normalizeName bs) = _
    rw [segmentsAfter, segmentsAfter, isSeparator_normalizeByte]
    split
    · rw [← hrun, ← ih]
      rfl
    · exact ih (b :: run)

theorem segments_normalizeName (name : Bytes) :
    segments (normalizeName name) = (segments name).map normalizeName :=
  segmentsAfter_normalizeName name []

theorem segmentsAfter_ne_nil {bs : Bytes} {last : UInt8} (hlast : isSeparator last = false)
    (run : Bytes) (h : (run.reverse ++ bs).getLast? = some last) : segmentsAfter run bs ≠ [] := by
  induction bs generalizing run with
  | nil =>
    rw [List.append_nil] at h
    cases run with
    | nil => cases h
    | cons x run => simp [segmentsAfter, consRun]
  | cons b bs ih =>
    rw [List.append_cons, ← List.reverse_cons] at h
    rw [segmentsAfter]
    split
    · rename_i hb
      have hbs : bs ≠ [] := by
        rintro rfl
        rw [List.append_nil, List.reverse_cons, List.getLast?_concat] at h
        cases h
        rw [hlast] at hb
        cases hb
      have hrest : segmentsAfter [] bs ≠ [] := by
        refine ih [] ?_
        rwa [List.getLast?_append, Option.or_of_isSome (List.getLast?_isSome.mpr hbs)] at h
      unfold consRun
      split
      · exact hrest
      · exact List.cons_ne_nil _ _
    · exact ih (b :: run) h

/-- **A name that does not end in a separator leads somewhere.** -/
theorem segments_ne_nil {name : Bytes} {last : UInt8} (h : name.getLast? = some last)
    (hlast : isSeparator last = false) : segments name ≠ [] :=
  segmentsAfter_ne_nil hlast [] h

theorem segmentsAfter_of_plain {bs run : Bytes} (h : ∀ b ∈ bs, isSeparator b = false)
    (hne : run.reverse ++ bs ≠ []) : segmentsAfter run bs = [run.reverse ++ bs] := by
  induction bs generalizing run with
  | nil =>
    rw [List.append_nil] at hne ⊢
    rw [segmentsAfter, consRun, if_neg]
    simpa using hne
  | cons b bs ih =>
    obtain ⟨hb, hbs⟩ := List.forall_mem_cons.mp h
    rw [segmentsAfter, hb, if_neg Bool.false_ne_true, ih hbs (by simp), List.reverse_cons,
      List.append_assoc]
    rfl

theorem segments_of_plain {name : Bytes} (h : ∀ b ∈ name, isSeparator b = false)
    (hne : name ≠ []) : segments name = [name] :=
  segmentsAfter_of_plain h hne

end PakIndex
