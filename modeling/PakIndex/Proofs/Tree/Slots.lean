import PakIndex.Proofs.Tree.Map

/-!
# Slots

* `Tree.slotOf`: where the slot of the entry at a path ends, in a list of all entries.
* **`Tree.toList_refreshSlots`**: to refresh the slots sets every entry's slot and nothing else.
* `Tree.slotOf_map`: slots follow from the paths and the header offsets alone.
* `Tree.slotEnd_refreshSlots`: refreshed slots are those of the refreshed tree.
* **`Tree.slotOf_eq_next`**: a slot ends at the next header.
* `Tree.slotOf_bounds`: a slot ends neither before its header nor after the last slot.
-/

namespace PakIndex.Tree

variable {t : Tree} {l : List (Path × Entry)}

/-- Where the slot of the entry at a path ends, among entries with paths: at the next header in the
order of the headers, and at `stop` for the last one. -/
def slotOf (stop : UInt32) (l : List (Path × Entry)) (p : Path) : UInt32 :=
  ((slotEnds stop (sortByHeader l)).lookup p).getD stop

theorem sortByHeader_perm (l : List (Path × Entry)) : (sortByHeader l).Perm l :=
  List.mergeSort_perm l _

theorem map_fst_slotEnds (stop : UInt32) (l : List (Path × Entry)) :
    (slotEnds stop l).map Prod.fst = l.map Prod.fst := by
  rw [slotEnds, List.map_fst_zip]
  rw [List.length_append, List.length_map, List.length_map, List.length_drop, List.length_singleton]
  omega

/-! ## Refreshing the slots -/

theorem foldl_modify_spec (stops : List (Path × UInt32)) (hs : (stops.map Prod.fst).Nodup)
    (h : t.Arranged) :
    let t' := stops.foldl (fun t x => t.modify x.1 fun e => { e with slotEnd := x.2 }) t
    t'.Arranged ∧ t'.names = t.names ∧ t'.size = t.size ∧ t'.toList = t.toList.map fun x =>
      (x.1, { x.2 with slotEnd := (stops.lookup x.1).getD x.2.slotEnd }) := by
  induction stops generalizing t with
  | nil => exact ⟨h, rfl, rfl, (List.map_id _).symm⟩
  | cons s stops ih =>
    obtain ⟨p, stop⟩ := s
    rw [List.map_cons, List.nodup_cons] at hs
    have h' : (t.modify p fun e => { e with slotEnd := stop }).Arranged := h.modify p fun _ => rfl
    obtain ⟨hwf, hnames, hsize, hlist⟩ := ih hs.2 h'
    refine ⟨hwf, hnames, hsize, ?_⟩
    rw [List.foldl_cons, hlist, toList_modify h, List.map_map]
    refine List.map_congr_left fun x _ => ?_
    rw [Function.comp_apply, List.lookup_cons]
    by_cases hx : x.1 = p
    · have hnone : stops.lookup p = none := lookup_eq_none_iff_keys.mpr hs.1
      simp only [hx, hnone, beq_self_eq_true, Option.getD_none, Option.getD_some, if_true]
    · simp only [if_neg hx, beq_false_of_ne hx]

theorem refreshSlots_spec (h : t.Arranged) (stop : UInt32) :
    (t.refreshSlots stop).Arranged ∧ (t.refreshSlots stop).names = t.names ∧
      (t.refreshSlots stop).size = t.size ∧ (t.refreshSlots stop).toList = t.toList.map fun x =>
        (x.1, { x.2 with slotEnd := slotOf stop t.toList x.1 }) := by
  have hkeys : ((slotEnds stop t.byHeader).map Prod.fst).Perm (t.toList.map Prod.fst) := by
    rw [map_fst_slotEnds]
    exact (sortByHeader_perm _).map _
  obtain ⟨hwf, hnames, hsize, hlist⟩ :=
    foldl_modify_spec _ (hkeys.nodup_iff.mpr h.nodup_paths) h
  refine ⟨hwf, hnames, hsize, hlist.trans (List.map_congr_left fun x hx => ?_)⟩
  -- Every path of the tree has a slot, so the slot that stood there before never counts.
  have hmem : x.1 ∈ (slotEnds stop t.byHeader).map Prod.fst :=
    hkeys.mem_iff.mpr (List.mem_map_of_mem hx)
  obtain ⟨s, hs⟩ : ∃ s, (slotEnds stop t.byHeader).lookup x.1 = some s :=
    Option.ne_none_iff_exists'.mp fun hnone => lookup_eq_none_iff_keys.mp hnone hmem
  have hslot : slotOf stop t.toList x.1 = s := by
    rw [slotOf]
    show ((slotEnds stop t.byHeader).lookup x.1).getD stop = s
    rw [hs, Option.getD_some]
  rw [hs, hslot, Option.getD_some]

theorem names_refreshSlots (h : t.WellFormed) (stop : UInt32) :
    (t.refreshSlots stop).names = t.names :=
  (refreshSlots_spec h.arranged stop).2.1

theorem WellFormed.refreshSlots (h : t.WellFormed) (stop : UInt32) :
    (t.refreshSlots stop).WellFormed := by
  refine (refreshSlots_spec h.arranged stop).1.wellFormed ?_
  rw [names_refreshSlots h]
  exact h.small

/-- **To refresh the slots** sets the slot of every entry and nothing else. -/
theorem toList_refreshSlots (h : t.WellFormed) (stop : UInt32) :
    (t.refreshSlots stop).toList = t.toList.map fun x =>
      (x.1, { x.2 with slotEnd := slotOf stop t.toList x.1 }) :=
  (refreshSlots_spec h.arranged stop).2.2.2

theorem binding_refreshSlots (h : t.WellFormed) (stop : UInt32) (q : Path) :
    (t.refreshSlots stop).binding q = (t.binding q).map fun e =>
      { e with slotEnd := slotOf stop t.toList q } := by
  rw [binding, toList_refreshSlots h,
    lookup_map t.toList (fun p e => { e with slotEnd := slotOf stop t.toList p })]
  rfl

/-! ## What slots depend on -/

theorem slotOf_map (stop : UInt32) (l : List (Path × Entry)) {f : Path × Entry → Path × Entry}
    (hf : ∀ x, (f x).1 = x.1 ∧ (f x).2.headerOffset = x.2.headerOffset) :
    slotOf stop (l.map f) = slotOf stop l := by
  have hsort : sortByHeader (l.map f) = (sortByHeader l).map f :=
    (List.map_mergeSort fun a _ b _ => by rw [(hf a).2, (hf b).2]).symm
  funext p
  rw [slotOf, slotOf, hsort, slotEnds, slotEnds, List.map_map, ← List.map_drop, List.map_map]
  have h₁ : Prod.fst ∘ f = Prod.fst := funext fun x => (hf x).1
  have h₂ : (fun x : Path × Entry => x.2.headerOffset) ∘ f = fun x => x.2.headerOffset :=
    funext fun x => (hf x).2
  rw [h₁, h₂]

theorem slotOf_congr (stop : UInt32) {l' : List (Path × Entry)}
    (h : l.map (fun x => (x.1, x.2.headerOffset)) = l'.map fun x => (x.1, x.2.headerOffset)) :
    slotOf stop l = slotOf stop l' := by
  have hkey : ∀ l : List (Path × Entry), slotOf stop l = slotOf stop
      ((l.map fun x => (x.1, x.2.headerOffset)).map fun x =>
        (x.1, { (default : Entry) with headerOffset := x.2 })) := fun l => by
    rw [List.map_map]
    exact (slotOf_map stop l (f := fun x =>
      (x.1, { (default : Entry) with headerOffset := x.2.headerOffset })) fun _ => ⟨rfl, rfl⟩).symm
  rw [hkey l, hkey l', h]

theorem slotEnd_refreshSlots (h : t.Arranged) {stop : UInt32} {p : Path} {e : Entry}
    (he : (p, e) ∈ (t.refreshSlots stop).toList) :
    e.slotEnd = slotOf stop (t.refreshSlots stop).toList p := by
  obtain ⟨-, -, -, hlist⟩ := refreshSlots_spec h stop
  have hslots : slotOf stop (t.refreshSlots stop).toList = slotOf stop t.toList := by
    rw [hlist]
    exact slotOf_map stop t.toList
      (f := fun x => (x.1, { x.2 with slotEnd := slotOf stop t.toList x.1 })) fun _ => ⟨rfl, rfl⟩
  rw [hslots]
  rw [hlist] at he
  obtain ⟨x, -, ⟨⟩⟩ := List.mem_map.mp he
  rfl

/-! ## Where slots end -/

variable {stop : UInt32} {p : Path} {e : Entry}

theorem sortByHeader_pairwise (l : List (Path × Entry)) :
    (sortByHeader l).Pairwise fun a b => a.2.headerOffset ≤ b.2.headerOffset := by
  apply (List.pairwise_mergeSort _ _ l).imp
  · intro a b h
    exact of_decide_eq_true h
  · intro a b c hab hbc
    rw [decide_eq_true_iff] at hab hbc ⊢
    exact UInt32.le_trans hab hbc
  · intro a b
    simp [UInt32.le_total]

theorem slotEnds_cons (stop : UInt32) (x : Path × Entry) (l : List (Path × Entry)) :
    slotEnds stop (x :: l) =
      (x.1, (l.head?.map fun y => y.2.headerOffset).getD stop) :: slotEnds stop l := by
  cases l <;> rfl

/-- **A slot ends at the next header** in the order of the headers. -/
theorem slotOf_eq_next {pre post : List (Path × Entry)} (hnd : (l.map Prod.fst).Nodup)
    (hsplit : sortByHeader l = pre ++ (p, e) :: post) :
    slotOf stop l p = (post.head?.map fun x => x.2.headerOffset).getD stop := by
  have hkeys := ((sortByHeader_perm l).map Prod.fst).nodup_iff.mpr hnd
  rw [hsplit] at hkeys
  rw [slotOf, hsplit]
  clear hsplit
  induction pre with
  | nil =>
    rw [List.nil_append, slotEnds_cons, List.lookup_cons_self, Option.getD_some]
  | cons x pre ih =>
    rw [List.cons_append, List.map_cons, List.nodup_cons] at hkeys
    have hne : p ≠ x.1 := fun hp => hkeys.1 (by simp [hp])
    rw [List.cons_append, slotEnds_cons, List.lookup_cons, beq_false_of_ne hne]
    exact ih hkeys.2

theorem slotOf_bounds (hnd : (l.map Prod.fst).Nodup) (hl : ∀ x ∈ l, x.2.headerOffset ≤ stop)
    (he : (p, e) ∈ l) : e.headerOffset ≤ slotOf stop l p ∧ slotOf stop l p ≤ stop := by
  have hperm := sortByHeader_perm l
  obtain ⟨pre, post, hsplit⟩ := List.append_of_mem (hperm.mem_iff.mpr he)
  have hsorted := sortByHeader_pairwise l
  rw [slotOf_eq_next hnd hsplit]
  cases post with
  | nil => exact ⟨hl _ he, UInt32.le_refl stop⟩
  | cons y post =>
    have hy : y ∈ l := by
      rw [← hperm.mem_iff, hsplit]
      simp
    rw [hsplit, List.pairwise_append] at hsorted
    exact ⟨(List.pairwise_cons.mp hsorted.2.1).1 y List.mem_cons_self, hl y hy⟩

end PakIndex.Tree
