import PakIndex.Proofs.Tree.Entrywise
import PakIndex.Proofs.Tree.Refine

/-!
# Slots divide the data among the entries

* `HeaderOrder`: entries in the order of their headers, those with one header in the order of
  listings; `HeaderOrder.unique`: there is one such order.
* `EndsAtNext`: every slot ends at the next header.
* `Partitions`: slots are disjoint and leave nothing out between the first header and the directory;
  **`EndsAtNext.partitions`**: this is so if every slot ends at the next header.
* `Tree.partitions_entries`: it is so in a tree whose slots follow from the order of the headers.
* **`Tree.Arranged.refreshed`**: to refresh the slots changes nothing else, makes them divide the
  data among the entries, and changes nothing when it is done again.
-/

namespace PakIndex

/-- The entry without its slot. -/
def Entry.unslotted (e : Entry) : Entry := { e with slotEnd := 0 }

/-- The offsets in the slot of an entry. -/
def Entry.slot (e : Entry) : Set Nat := Set.Ico e.headerOffset.toNat e.slotEnd.toNat

/-! ## The order of the headers -/

/-- Whether `sorted` is `es` in the order of the headers, where entries with one header keep the
order that they have in `es`. -/
structure HeaderOrder (es sorted : List Entry) : Prop where
  perm : sorted.Perm es
  ascending : sorted.Pairwise fun a b => a.headerOffset ≤ b.headerOffset
  stable : ∀ header, (sorted.filter fun e => e.headerOffset == header) =
    es.filter fun e => e.headerOffset == header

theorem eq_of_filter_header {l l' : List Entry}
    (hl : l.Pairwise fun a b => a.headerOffset ≤ b.headerOffset)
    (hl' : l'.Pairwise fun a b => a.headerOffset ≤ b.headerOffset)
    (h : ∀ header, (l.filter fun e => e.headerOffset == header) =
      l'.filter fun e => e.headerOffset == header) : l = l' := by
  have hmem : ∀ {l l' : List Entry}, (∀ header, (l.filter fun e => e.headerOffset == header) =
      l'.filter fun e => e.headerOffset == header) → ∀ e ∈ l, e ∈ l' := by
    intro l l' h e he
    have hfilter : e ∈ l.filter fun x => x.headerOffset == e.headerOffset := by simp [he]
    rw [h] at hfilter
    exact (List.mem_filter.mp hfilter).1
  induction l generalizing l' with
  | nil => exact (List.eq_nil_iff_forall_not_mem.mpr fun e he =>
      List.not_mem_nil (hmem (fun header => (h header).symm) e he)).symm
  | cons a l ih =>
    cases l' with
    | nil => exact absurd (hmem h a List.mem_cons_self) List.not_mem_nil
    | cons b l' =>
      -- Both begin with the first entry that has the least header.
      have hle : ∀ {c d : Entry} {m : List Entry}, ((d :: m).Pairwise fun a b =>
          a.headerOffset ≤ b.headerOffset) → c ∈ d :: m → d.headerOffset ≤ c.headerOffset := by
        intro c d m hm hc
        rcases List.mem_cons.mp hc with rfl | hc
        · exact UInt32.le_refl _
        · exact (List.pairwise_cons.mp hm).1 c hc
      have hab : a.headerOffset = b.headerOffset := UInt32.le_antisymm
        (hle hl (hmem (fun header => (h header).symm) b List.mem_cons_self))
        (hle hl' (hmem h a List.mem_cons_self))
      have hhead := h a.headerOffset
      simp only [List.filter_cons, hab, beq_self_eq_true, if_true] at hhead
      obtain ⟨rfl, htail⟩ := List.cons.inj hhead
      rw [ih (List.pairwise_cons.mp hl).2 (List.pairwise_cons.mp hl').2]
      intro header
      have := h header
      simp only [List.filter_cons] at this
      split at this
      · exact (List.cons.inj this).2
      · exact this

theorem HeaderOrder.unique {es l l' : List Entry} (h : HeaderOrder es l) (h' : HeaderOrder es l') :
    l = l' :=
  eq_of_filter_header h.ascending h'.ascending fun header =>
    (h.stable header).trans (h'.stable header).symm

/-! ## Slots one after the other -/

/-- Whether every slot ends at the next header, and the last one at `stop`. -/
def EndsAtNext (stop : UInt32) : List Entry → Prop
  | [] => True
  | [e] => e.slotEnd = stop
  | e :: e' :: es => e.slotEnd = e'.headerOffset ∧ EndsAtNext stop (e' :: es)

/-- Whether slots divide the data in front of `stop`: none ends before it begins, no two have an
offset in common, and together they cover all from the first header on. -/
structure Partitions (es : List Entry) (stop : UInt32) : Prop where
  ordered : ∀ e ∈ es, e.headerOffset ≤ e.slotEnd
  disjoint : es.Pairwise fun a b => a.slot ∩ b.slot = ∅
  cover : ∃ first, IsLeast {header | ∃ e ∈ es, e.headerOffset = header} first ∧
    ⋃ e ∈ es, e.slot = Set.Ico first.toNat stop.toNat

variable {stop : UInt32} {es es' : List Entry}

theorem Partitions.perm (h : Partitions es stop) (hperm : es.Perm es') : Partitions es' stop := by
  obtain ⟨first, hleast, hcover⟩ := h.cover
  refine ⟨fun e he => h.ordered e (hperm.mem_iff.mpr he),
    (hperm.pairwise_iff fun hab => (Set.inter_comm _ _).trans hab).mp h.disjoint, first, ?_, ?_⟩
  · simpa only [hperm.mem_iff] using hleast
  · simpa only [hperm.mem_iff] using hcover

theorem endsAtNext_of_split (h : ∀ pre e post, es = pre ++ e :: post →
    e.slotEnd = (post.head?.map Entry.headerOffset).getD stop) : EndsAtNext stop es := by
  induction es with
  | nil => trivial
  | cons e es ih =>
    have htail : EndsAtNext stop es := by
      apply ih
      rintro pre x post rfl
      exact h (e :: pre) x post rfl
    cases es with
    | nil => exact h [] e [] rfl
    | cons e' es => exact ⟨h [] e (e' :: es) rfl, htail⟩

theorem EndsAtNext.slotEnd_le {e x : Entry} (h : EndsAtNext stop (e :: es))
    (hes : (e :: es).Pairwise fun a b => a.headerOffset ≤ b.headerOffset)
    (hx : x ∈ es) : e.slotEnd ≤ x.headerOffset := by
  cases es with
  | nil => cases hx
  | cons e' es =>
    rw [h.1]
    rcases List.mem_cons.mp hx with rfl | hx
    · exact UInt32.le_refl _
    · exact (List.pairwise_cons.mp (List.pairwise_cons.mp hes).2).1 x hx

theorem EndsAtNext.le_slotEnd (h : EndsAtNext stop es)
    (hes : es.Pairwise fun a b => a.headerOffset ≤ b.headerOffset)
    (hstop : ∀ e ∈ es, e.headerOffset ≤ stop) : ∀ e ∈ es, e.headerOffset ≤ e.slotEnd := by
  fun_induction EndsAtNext stop es with
  | case1 => simp
  | case2 e => simpa [h] using hstop
  | case3 e e' es ih =>
    obtain ⟨hfirst, hrest⟩ := List.pairwise_cons.mp hes
    refine List.forall_mem_cons.mpr ⟨?_, ih h.2 hrest (List.forall_mem_cons.mp hstop).2⟩
    rw [h.1]
    exact hfirst e' List.mem_cons_self

theorem EndsAtNext.disjoint (h : EndsAtNext stop es)
    (hes : es.Pairwise fun a b => a.headerOffset ≤ b.headerOffset) :
    es.Pairwise fun a b => a.slot ∩ b.slot = ∅ := by
  fun_induction EndsAtNext stop es with
  | case1 => exact .nil
  | case2 e => exact List.pairwise_singleton _ e
  | case3 e e' es ih =>
    refine List.pairwise_cons.mpr ⟨fun x hx => ?_, ih h.2 (List.pairwise_cons.mp hes).2⟩
    have hends : EndsAtNext stop (e :: e' :: es) := h
    have hle := UInt32.le_iff_toNat_le.mp (hends.slotEnd_le hes hx)
    refine Set.eq_empty_of_forall_notMem ?_
    rintro o ⟨ho, hox⟩
    have := ho.2
    have := hox.1
    omega

theorem EndsAtNext.iUnion_slot {e : Entry} (h : EndsAtNext stop (e :: es))
    (hes : (e :: es).Pairwise fun a b => a.headerOffset ≤ b.headerOffset)
    (hstop : ∀ x ∈ e :: es, x.headerOffset ≤ stop) :
    ⋃ x ∈ e :: es, x.slot = Set.Ico e.headerOffset.toNat stop.toNat := by
  induction es generalizing e with
  | nil =>
    have hend : e.slotEnd = stop := h
    simp [Entry.slot, hend]
  | cons e' es ih =>
    obtain ⟨hfirst, hrest⟩ := List.pairwise_cons.mp hes
    have hstop' := (List.forall_mem_cons.mp hstop).2
    have h₁ := UInt32.le_iff_toNat_le.mp (hfirst e' List.mem_cons_self)
    have h₂ := UInt32.le_iff_toNat_le.mp (hstop' e' List.mem_cons_self)
    calc ⋃ x ∈ e :: e' :: es, x.slot = e.slot ∪ ⋃ x ∈ e' :: es, x.slot := by
          simp [Set.iUnion_or, Set.iUnion_union_distrib]
      _ = Set.Ico e.headerOffset.toNat e'.headerOffset.toNat ∪
          Set.Ico e'.headerOffset.toNat stop.toNat := by
          rw [ih h.2 hrest hstop', Entry.slot, h.1]
      _ = Set.Ico e.headerOffset.toNat stop.toNat := Set.Ico_union_Ico_eq_Ico h₁ h₂

/-- **Slots that end at the next header divide the data**, if no header lies behind it. -/
theorem EndsAtNext.partitions (h : EndsAtNext stop es) (hne : es ≠ [])
    (hes : es.Pairwise fun a b => a.headerOffset ≤ b.headerOffset)
    (hstop : ∀ e ∈ es, e.headerOffset ≤ stop) : Partitions es stop := by
  cases es with
  | nil => exact absurd rfl hne
  | cons e es =>
    refine ⟨h.le_slotEnd hes hstop, h.disjoint hes, e.headerOffset, ⟨?_, ?_⟩,
      h.iUnion_slot hes hstop⟩
    · exact ⟨e, List.mem_cons_self, rfl⟩
    · rintro _ ⟨x, hx, rfl⟩
      rcases List.mem_cons.mp hx with rfl | hx
      · exact UInt32.le_refl _
      · exact (List.pairwise_cons.mp hes).1 x hx

/-! ## Refreshed slots -/

namespace Tree

variable {t : Tree}

/-- The tree without the slots of its entries. -/
def unslotted (t : Tree) : Tree := t.map Entry.unslotted

/-- **To refresh the slots changes nothing but the slots.** -/
theorem unslotted_refreshSlots (t : Tree) (stop : UInt32) :
    (t.refreshSlots stop).unslotted = t.unslotted := by
  rw [refreshSlots]
  generalize slotEnds stop t.byHeader = ends
  induction ends generalizing t with
  | nil => rfl
  | cons x ends ih =>
    obtain ⟨p, s⟩ := x
    rw [List.foldl_cons, ih]
    exact map_modify_of_eq (fun e => by rfl) p

theorem map_headerOffset_refreshSlots (t : Tree) (stop : UInt32) :
    (t.refreshSlots stop).entries.map Entry.headerOffset = t.entries.map Entry.headerOffset := by
  have hentries : ∀ t : Tree,
      t.unslotted.entries.map Entry.headerOffset = t.entries.map Entry.headerOffset := by
    intro t
    simp [unslotted, entries, toList_map, Entry.unslotted, Function.comp_def]
  rw [← hentries, unslotted_refreshSlots, hentries]

theorem headerOrder_byHeader (t : Tree) : HeaderOrder t.entries (t.byHeader.map Prod.snd) := by
  have hperm : (t.byHeader.map Prod.snd).Perm t.entries := (sortByHeader_perm t.toList).map _
  refine ⟨hperm, List.pairwise_map.mpr (sortByHeader_pairwise t.toList), fun header => ?_⟩
  -- Those with one header are in order already, and sorting leaves such a part as it is.
  have hsublist : (t.toList.filter fun x => x.2.headerOffset == header).Sublist t.byHeader := by
    apply List.sublist_mergeSort
    · intro a b c hab hbc
      simp only [decide_eq_true_eq] at hab hbc ⊢
      exact UInt32.le_trans hab hbc
    · intro a b
      simp [UInt32.le_total]
    · refine List.pairwise_of_forall_mem_list fun a ha b hb => ?_
      have ha := beq_iff_eq.mp (List.mem_filter.mp ha).2
      have hb := beq_iff_eq.mp (List.mem_filter.mp hb).2
      simp [ha, hb]
    · exact List.filter_sublist
  have hsublist := (hsublist.map Prod.snd).filter fun e : Entry => e.headerOffset == header
  have hsame : ((t.toList.filter fun x => x.2.headerOffset == header).map Prod.snd).filter
      (fun e => e.headerOffset == header) = t.entries.filter fun e => e.headerOffset == header := by
    rw [entries, List.filter_map, List.filter_map, List.filter_filter]
    simp [Function.comp_def]
  rw [hsame] at hsublist
  exact (hsublist.eq_of_length (hperm.filter _).length_eq.symm).symm

theorem endsAtNext_byHeader (h : t.Arranged)
    (hslots : ∀ p e, (p, e) ∈ t.toList → e.slotEnd = slotOf stop t.toList p) :
    EndsAtNext stop (t.byHeader.map Prod.snd) := by
  apply endsAtNext_of_split
  intro pre e post hsplit
  obtain ⟨pre, tail, hsorted, -, htail⟩ := List.map_eq_append_iff.mp hsplit
  obtain ⟨⟨p, x⟩, post, rfl, rfl, rfl⟩ := List.map_eq_cons_iff.mp htail
  have hmem : (p, x) ∈ t.toList := by
    rw [← (sortByHeader_perm _).mem_iff]
    show _ ∈ byHeader _
    rw [hsorted]
    simp
  rw [hslots p x hmem, slotOf_eq_next h.nodup_paths hsorted]
  cases post <;> rfl

theorem partitions_entries (h : t.Arranged)
    (hslots : ∀ p e, (p, e) ∈ t.toList → e.slotEnd = slotOf stop t.toList p)
    (hne : t.entries ≠ []) (hstop : ∀ e ∈ t.entries, e.headerOffset ≤ stop) :
    Partitions t.entries stop := by
  have horder := headerOrder_byHeader t
  refine ((endsAtNext_byHeader h hslots).partitions (fun hnil => hne ?_) horder.ascending
    fun e he => hstop e (horder.perm.mem_iff.mp he)).perm horder.perm
  have hperm := horder.perm
  rw [hnil] at hperm
  exact hperm.symm.eq_nil

theorem slotOf_of_mem {l : List (Path × Entry)} {p : Path} {s : UInt32}
    (hnd : (l.map Prod.fst).Nodup) (hs : (p, s) ∈ slotEnds stop (sortByHeader l)) :
    slotOf stop l p = s := by
  have hkeys : ((slotEnds stop (sortByHeader l)).map Prod.fst).Nodup := by
    rw [map_fst_slotEnds]
    exact ((sortByHeader_perm l).map _).nodup_iff.mpr hnd
  rw [slotOf, (lookup_eq_some_iff_mem hkeys).mpr hs, Option.getD_some]

/-- **To refresh the slots again changes nothing.** -/
theorem refreshSlots_refreshSlots (h : t.Arranged) (stop : UInt32) :
    (t.refreshSlots stop).refreshSlots stop = t.refreshSlots stop := by
  obtain ⟨harranged, -⟩ := refreshSlots_spec h stop
  have hslot : ∀ p e, (t.refreshSlots stop).get? p = some e →
      e.slotEnd = slotOf stop (t.refreshSlots stop).toList p := fun p e he =>
    slotEnd_refreshSlots h (harranged.get?_eq_some_iff.mp he)
  generalize t.refreshSlots stop = u at harranged hslot ⊢
  have hends : ∀ x ∈ slotEnds stop u.byHeader,
      (u.modify x.1 fun e => { e with slotEnd := x.2 }) = u := by
    intro x hx
    apply modify_eq_self
    intro e he
    rw [← slotOf_of_mem harranged.nodup_paths hx, ← hslot x.1 e he]
  rw [refreshSlots]
  generalize slotEnds stop u.byHeader = ends at hends
  induction ends with
  | nil => rfl
  | cons x ends ih =>
    obtain ⟨p, s⟩ := x
    obtain ⟨hx, hends⟩ := List.forall_mem_cons.mp hends
    exact (congrArg (ends.foldl _) hx).trans (ih hends)

/-- What it is to refresh the slots of `t`, which makes it `u`: nothing but the slots changes, every
slot ends at the next header in the order of the headers, slots divide the data if no header lies
behind it, and to do it again changes nothing. -/
structure Refreshed (stop : UInt32) (t u : Tree) : Prop where
  unslotted : u.unslotted = t.unslotted
  sorted : ∃ sorted, HeaderOrder u.entries sorted
  ends : ∀ sorted, HeaderOrder u.entries sorted → EndsAtNext stop sorted
  partitions : t.entries ≠ [] → (∀ e ∈ t.entries, e.headerOffset ≤ stop) →
    Partitions u.entries stop
  again : u.refreshSlots stop = u

/-- **Refreshed slots divide the data among the entries.** -/
theorem Arranged.refreshed (h : t.Arranged) (stop : UInt32) :
    Refreshed stop t (t.refreshSlots stop) := by
  obtain ⟨harranged, -⟩ := refreshSlots_spec h stop
  have hslots := fun p e => @slotEnd_refreshSlots t h stop p e
  have hheaders := map_headerOffset_refreshSlots t stop
  refine ⟨unslotted_refreshSlots t stop, ⟨_, headerOrder_byHeader _⟩, fun sorted hsorted => ?_,
    fun hne hstop => ?_, refreshSlots_refreshSlots h stop⟩
  · rw [hsorted.unique (headerOrder_byHeader _)]
    exact endsAtNext_byHeader harranged hslots
  · refine partitions_entries harranged hslots (fun hnil => hne ?_) fun e he => ?_
    · rw [hnil] at hheaders
      exact List.map_eq_nil_iff.mp hheaders.symm
    · have hmem : e.headerOffset ∈ t.entries.map Entry.headerOffset := by
        rw [← hheaders]
        exact List.mem_map_of_mem he
      obtain ⟨x, hx, hxe⟩ := List.mem_map.mp hmem
      rw [← hxe]
      exact hstop x hx

end Tree

end PakIndex
