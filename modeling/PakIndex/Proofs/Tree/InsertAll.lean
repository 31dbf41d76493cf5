import PakIndex.Proofs.Tree.Slots

/-!
# Putting many entries

* `Tree.insertAll`: the tree with more entries, put one after the other.
* **`Tree.Arranged.get?_insertAll`**, **`Tree.binding_insertAll`**: a path is bound to the last
  entry that was put there.
* `Tree.sum_insertAll_le`: replaced entries only make the whole smaller.
* `Tree.insertAll_perm`: entries under different paths are all listed.
-/

namespace PakIndex.Tree

variable {t : Tree} {es : List Entry}

/-- The tree with more entries, put one after the other. -/
def insertAll (t : Tree) (es : List Entry) : Tree := es.foldl (fun t e => (t.insert e).2) t

/-- Whether an entry can be put: its name is in the pool and leads somewhere. -/
def Puttable (names : NamePool) (e : Entry) : Prop :=
  names.Holds e.name ∧ segments (names.get e.name) ≠ []

theorem insertAll_cons (t : Tree) (e : Entry) (es : List Entry) :
    t.insertAll (e :: es) = (t.insert e).2.insertAll es := by
  rw [insertAll, List.foldl_cons, insertAll]

theorem names_insertAll (t : Tree) (es : List Entry) : (t.insertAll es).names = t.names := by
  induction es generalizing t with
  | nil => rfl
  | cons e es ih => rw [insertAll_cons, ih, names_insert]

theorem Arranged.insertAll (h : t.Arranged) (hes : ∀ e ∈ es, t.names.Holds e.name) :
    (t.insertAll es).Arranged := by
  induction es generalizing t with
  | nil => exact h
  | cons e es ih =>
    obtain ⟨he, hes⟩ := List.forall_mem_cons.mp hes
    rw [insertAll_cons]
    apply ih (h.insert he)
    rw [names_insert]
    exact hes

theorem Arranged.get?_insertAll (h : t.Arranged) (hes : ∀ e ∈ es, t.names.Holds e.name) {q : Path}
    (hq : q ≠ []) : (t.insertAll es).get? q =
      ((es.filter fun e => q == t.names.path e.name).getLast?).or (t.get? q) := by
  induction es generalizing t with
  | nil => rfl
  | cons e es ih =>
    obtain ⟨he, hes⟩ := List.forall_mem_cons.mp hes
    rw [insertAll_cons, ih (h.insert he) (by rw [names_insert]; exact hes), h.get?_insert he hq,
      names_insert, List.filter_cons]
    by_cases heq : q = t.names.path e.name
    · have hb : (q == t.names.path e.name) = true := beq_iff_eq.mpr heq
      rw [if_pos heq, if_pos hb, List.getLast?_cons]
      cases (es.filter fun e => q == t.names.path e.name).getLast? <;> rfl
    · have hb : ¬ (q == t.names.path e.name) = true := fun hb => heq (beq_iff_eq.mp hb)
      rw [if_neg heq, if_neg hb]

theorem WellFormed.insertAll (h : t.WellFormed) (hes : ∀ e ∈ es, Puttable t.names e) :
    (t.insertAll es).WellFormed := by
  refine (h.arranged.insertAll fun e he => (hes e he).1).wellFormed ?_
  rw [names_insertAll]
  exact h.small

/-- **A path is bound to the last entry that was put there**, or as it was before. -/
theorem binding_insertAll (h : t.WellFormed) (hes : ∀ e ∈ es, Puttable t.names e) (q : Path) :
    (t.insertAll es).binding q =
      ((es.filter fun e => q == segments (t.nameOf e)).getLast?).or (t.binding q) := by
  have hpath : ∀ e ∈ es, t.names.path e.name = segments (t.nameOf e) := fun e he =>
    NamePool.path_eq h.small (hes e he).1
  rw [← (h.insertAll hes).get?_eq_binding, ← h.get?_eq_binding]
  by_cases hq : q = []
  · subst hq
    have hnone : (es.filter fun e => [] == segments (t.nameOf e)) = [] :=
      List.filter_eq_nil_iff.mpr fun e he hb => (hes e he).2 (beq_iff_eq.mp hb).symm
    rw [hnone]
    rfl
  · rw [h.arranged.get?_insertAll (fun e he => (hes e he).1) hq,
      List.filter_congr fun e he => by rw [hpath e he]]

theorem mem_insertAll (h : t.WellFormed) (hes : ∀ e ∈ es, Puttable t.names e) {q : Path} {e : Entry}
    (he : (q, e) ∈ (t.insertAll es).toList) : e ∈ es ∨ (q, e) ∈ t.toList := by
  rw [← (h.insertAll hes).binding_eq_some_iff, binding_insertAll h hes, Option.or_eq_some_iff] at he
  rcases he with he | ⟨-, he⟩
  · exact .inl (List.mem_filter.mp (List.mem_of_getLast? he)).1
  · exact .inr (h.binding_eq_some_iff.mp he)

theorem sum_insertAll_le (h : t.WellFormed) (hes : ∀ e ∈ es, Puttable t.names e)
    (weight : Entry → Nat) : ((t.insertAll es).toList.map fun x => weight x.2).sum ≤
      (t.toList.map fun x => weight x.2).sum + (es.map weight).sum := by
  induction es generalizing t with
  | nil => exact le_rfl
  | cons e es ih =>
    obtain ⟨he, hes⟩ := List.forall_mem_cons.mp hes
    have hwf : (t.insert e).2.WellFormed := (insert_spec h he.1 he.2).2.1
    have hperm : ((t.insert e).2.toList.map fun x => weight x.2).sum = weight e +
        ((t.toList.filter fun x => x.1 != segments (t.nameOf e)).map fun x => weight x.2).sum := by
      obtain ⟨-, -, hlist⟩ := insert_spec h he.1 he.2
      rw [(hlist.map fun x => weight x.2).sum_eq, List.map_cons, List.sum_cons]
    have hfilter : ((t.toList.filter fun x => x.1 != segments (t.nameOf e)).map
        fun x => weight x.2).sum ≤ (t.toList.map fun x => weight x.2).sum :=
      (List.filter_sublist.map _).sum_le_sum fun _ _ => Nat.zero_le _
    have := ih hwf (by rw [names_insert]; exact hes)
    rw [insertAll_cons, List.map_cons, List.sum_cons]
    omega

/-- **Entries under different paths are all listed**, in a tree that was empty before. -/
theorem insertAll_perm (h : t.WellFormed) (hempty : t.toList = [])
    (hes : ∀ e ∈ es, Puttable t.names e) (hnd : (es.map fun e => segments (t.nameOf e)).Nodup) :
    (t.insertAll es).toList.Perm (es.map fun e => (segments (t.nameOf e), e)) := by
  have hwf := h.insertAll hes
  refine (List.perm_ext_iff_of_nodup hwf.nodup_paths.of_map ?_).mpr ?_
  · refine List.Nodup.of_map Prod.fst ?_
    rw [List.map_map]
    exact hnd
  · rintro ⟨q, e⟩
    rw [List.mem_map]
    constructor
    · intro he
      have hq := hwf.path_of_mem he
      rw [nameOf, names_insertAll] at hq
      rcases mem_insertAll h hes he with he | he
      · exact ⟨e, he, by rw [hq, nameOf]⟩
      · rw [hempty] at he
        cases he
    · rintro ⟨e', he', heq⟩
      cases heq
      -- The last entry under its path can only be the entry itself.
      obtain ⟨x, hx⟩ : ∃ x, (es.filter fun x =>
          segments (t.nameOf e) == segments (t.nameOf x)).getLast? = some x := by
        refine Option.ne_none_iff_exists'.mp fun hnone => ?_
        have hmem : e ∈ es.filter fun x => segments (t.nameOf e) == segments (t.nameOf x) :=
          List.mem_filter.mpr ⟨he', beq_self_eq_true _⟩
        rw [List.getLast?_eq_none_iff.mp hnone] at hmem
        cases hmem
      obtain ⟨hxes, hxe⟩ := List.mem_filter.mp (List.mem_of_getLast? hx)
      have hxe : e = x := List.inj_on_of_nodup_map hnd he' hxes (beq_iff_eq.mp hxe)
      rw [← hwf.binding_eq_some_iff, binding_insertAll h hes, hx, ← hxe]
      rfl

end PakIndex.Tree
