import PakIndex.Tree
import PakIndex.Proofs.Tree.Order

/-!
# The tree as a finite map

* `Tree.Arranged`: the folders are well formed and the number of entries is right;
  `Tree.WellFormed`: and the pool has places for 32-bit offsets.
* `Tree.binding`: the entry that is listed at a path.
* `Tree.get?_eq_binding`: it is the one that is found there.
* `Tree.Arranged.insert_spec`, `Tree.toList_modify`: what putting and changing an entry do to the
  list of all entries.
* `Tree.binding_insert`, `Tree.binding_modify`: what they do to the map.
-/

namespace PakIndex

/-! ## Lists of bindings -/

section Bindings

variable {α β : Type} [BEq α] [LawfulBEq α] {l : List (α × β)} {k : α} {v : β}

theorem lookup_eq_some_iff_mem (hl : (l.map Prod.fst).Nodup) :
    l.lookup k = some v ↔ (k, v) ∈ l := by
  induction l with
  | nil => simp
  | cons x l ih =>
    obtain ⟨k', v'⟩ := x
    rw [List.map_cons, List.nodup_cons] at hl
    rw [List.lookup_cons, List.mem_cons, Prod.mk.injEq]
    by_cases hk : k = k'
    · subst hk
      rw [beq_self_eq_true]
      show some v' = some v ↔ _
      rw [Option.some.injEq]
      constructor
      · rintro rfl
        exact .inl ⟨rfl, rfl⟩
      · rintro (⟨-, rfl⟩ | h)
        · rfl
        · exact absurd (List.mem_map_of_mem (f := Prod.fst) h) hl.1
    · rw [beq_false_of_ne hk]
      show l.lookup k = some v ↔ _
      rw [ih hl.2]
      exact ⟨.inr, fun h => h.resolve_left fun h => hk h.1⟩

theorem lookup_eq_none_iff_keys : l.lookup k = none ↔ k ∉ l.map Prod.fst := by
  rw [List.lookup_eq_none_iff, List.mem_map]
  constructor
  · rintro h ⟨x, hx, rfl⟩
    exact bne_iff_ne.mp (h x hx) rfl
  · intro h x hx
    exact bne_iff_ne.mpr fun hk => h ⟨x, hx, hk.symm⟩

theorem perm_cons_filter (hl : (l.map Prod.fst).Nodup) (h : (k, v) ∈ l) :
    l.Perm ((k, v) :: l.filter fun x => x.1 != k) := by
  have hnd : ((k, v) :: l.filter fun x => x.1 != k).Nodup := by
    refine List.nodup_cons.mpr ⟨fun hm => ?_, hl.of_map.filter _⟩
    simpa using (List.mem_filter.mp hm).2
  rw [List.perm_ext_iff_of_nodup hl.of_map hnd]
  intro x
  rw [List.mem_cons, List.mem_filter]
  constructor
  · intro hx
    by_cases hk : x.1 = k
    · subst hk
      have h1 := (lookup_eq_some_iff_mem hl).mpr h
      rw [(lookup_eq_some_iff_mem hl).mpr hx] at h1
      cases h1
      exact .inl rfl
    · exact .inr ⟨hx, by simpa using hk⟩
  · rintro (rfl | hx)
    · exact h
    · exact hx.1

end Bindings

namespace Tree

variable {t : Tree} {e : Entry} {p : Path}

/-- Whether a tree is arranged as it should be: its folders are well formed, and the number of
entries is right. -/
structure Arranged (t : Tree) : Prop where
  root : t.root.WellFormed t.names []
  size_eq : t.size = t.toList.length

/-- Whether a tree is well formed: its pool has places for 32-bit offsets, its folders are well
formed, and the number of entries is right. -/
structure WellFormed (t : Tree) : Prop where
  small : t.names.size < 2 ^ 32
  root : t.root.WellFormed t.names []
  size_eq : t.size = t.toList.length

/-- The entry listed at a path: the tree as a finite map. -/
def binding (t : Tree) (p : Path) : Option Entry := t.toList.lookup p

namespace Arranged

theorem nodup_paths (h : t.Arranged) : (t.toList.map Prod.fst).Nodup := Node.nodup_paths h.root

/-- **What is found at a path is what is listed there.** -/
theorem get?_eq_some_iff (h : t.Arranged) : t.get? p = some e ↔ (p, e) ∈ t.toList :=
  Node.get?_eq_some_iff h.root

theorem path_of_mem (h : t.Arranged) (he : (p, e) ∈ t.toList) : t.names.path e.name = p :=
  Node.path_of_mem_toList h.root he

theorem wellFormed (h : t.Arranged) (hsmall : t.names.size < 2 ^ 32) : t.WellFormed :=
  ⟨hsmall, h.root, h.size_eq⟩

end Arranged

namespace WellFormed

theorem arranged (h : t.WellFormed) : t.Arranged := ⟨h.root, h.size_eq⟩

theorem nodup_paths (h : t.WellFormed) : (t.toList.map Prod.fst).Nodup := Node.nodup_paths h.root

theorem binding_eq_some_iff (h : t.WellFormed) : t.binding p = some e ↔ (p, e) ∈ t.toList :=
  lookup_eq_some_iff_mem h.nodup_paths

theorem entry_eq {e' : Entry} (h : t.WellFormed) (he : (p, e) ∈ t.toList)
    (he' : (p, e') ∈ t.toList) : e = e' := by
  rw [← h.binding_eq_some_iff] at he he'
  exact Option.some.inj (he.symm.trans he')

theorem get?_eq_binding (h : t.WellFormed) (p : Path) : t.get? p = t.binding p := by
  ext e
  exact (Node.get?_eq_some_iff h.root).trans h.binding_eq_some_iff.symm

theorem find?_eq_some_iff (h : t.WellFormed) {path : String} :
    t.find? path = some e ↔ (querySegments path, e) ∈ t.toList := by
  rw [← h.binding_eq_some_iff, ← h.get?_eq_binding]
  rfl

theorem holds_of_mem (h : t.WellFormed) (he : (p, e) ∈ t.toList) : t.names.Holds e.name :=
  Node.holds_of_mem_toList h.root he

theorem path_of_mem (h : t.WellFormed) (he : (p, e) ∈ t.toList) : p = segments (t.nameOf e) := by
  have hp := Node.path_of_mem_toList h.root he
  rw [NamePool.path_eq h.small (h.holds_of_mem he), List.nil_append] at hp
  exact hp.symm

end WellFormed

theorem arranged_ofNames (names : NamePool) : (ofNames names).Arranged :=
  ⟨Node.wellFormed_empty [], rfl⟩

theorem wellFormed_ofNames {names : NamePool} (h : names.size < 2 ^ 32) :
    (ofNames names).WellFormed :=
  (arranged_ofNames names).wellFormed h

/-! ## Putting an entry -/

theorem insert_of_path_eq_nil (hp : t.names.path e.name = []) : t.insert e = (none, t) := by
  rw [NamePool.path, List.map_eq_nil_iff] at hp
  rw [insert, hp]

theorem insert_of_segments_eq_nil (h : t.WellFormed) (he : t.names.Holds e.name)
    (hp : segments (t.nameOf e) = []) : t.insert e = (none, t) :=
  insert_of_path_eq_nil ((NamePool.path_eq h.small he).trans hp)

theorem insert_eq (hp : t.names.segments e.name ≠ []) : t.insert e =
    ((t.root.insert t.names e (t.names.segments e.name)).1,
      ⟨t.names, (t.root.insert t.names e (t.names.segments e.name)).2,
        if (t.root.insert t.names e (t.names.segments e.name)).1.isSome then t.size
        else t.size + 1⟩) := by
  rw [insert]
  split
  · rename_i h
    exact absurd h hp
  · rfl

theorem names_insert (t : Tree) (e : Entry) : (t.insert e).2.names = t.names := by
  rw [insert]
  split <;> rfl

theorem Arranged.insert_spec (h : t.Arranged) (he : t.names.Holds e.name)
    (hp : t.names.path e.name ≠ []) :
    (t.insert e).1 = t.get? (t.names.path e.name) ∧ (t.insert e).2.Arranged ∧
      (t.insert e).2.toList.Perm ((t.names.path e.name, e) ::
        t.toList.filter fun x => x.1 != t.names.path e.name) := by
  have hrefs : t.names.segments e.name ≠ [] := fun hnil => hp (by rw [NamePool.path, hnil]; rfl)
  obtain ⟨hold, hroot, hmem⟩ := Node.insert_spec hrefs h.root
    (fun r hr => NamePool.holds_of_mem_segments he hr) he (List.nil_append _).symm
  change _ = t.get? (t.names.path e.name) at hold
  change ∀ q x, _ ↔ q = t.names.path e.name ∧ _ ∨ q ≠ t.names.path e.name ∧ _ at hmem
  rw [insert_eq hrefs]
  generalize t.names.path e.name = path at hp hold hmem
  have hperm : (Node.toList t.names (t.root.insert t.names e (t.names.segments e.name)).2).Perm
      ((path, e) :: t.toList.filter fun x => x.1 != path) := by
    refine (List.perm_ext_iff_of_nodup (Node.nodup_toList hroot) ?_).mpr ?_
    · refine List.nodup_cons.mpr ⟨fun hm => ?_, (Node.nodup_toList h.root).filter _⟩
      simpa using (List.mem_filter.mp hm).2
    · rintro ⟨q, x⟩
      rw [hmem, List.mem_cons, List.mem_filter, Prod.mk.injEq]
      rw [bne_iff_ne]
      exact or_congr Iff.rfl and_comm
  refine ⟨hold, ⟨hroot, ?_⟩, hperm⟩
  show (if _ then t.size else t.size + 1) = (Node.toList t.names _).length
  rw [hperm.length_eq, List.length_cons, hold]
  cases hg : t.get? path with
  | none =>
    have hall : t.toList.filter (fun x => x.1 != path) = t.toList := by
      refine List.filter_eq_self.mpr fun x hx => ?_
      rw [bne_iff_ne]
      rintro rfl
      rw [h.get?_eq_some_iff.mpr hx] at hg
      cases hg
    rw [hall, h.size_eq]
    rfl
  | some old =>
    have hlen := (perm_cons_filter h.nodup_paths (h.get?_eq_some_iff.mp hg)).length_eq
    rw [List.length_cons] at hlen
    rw [← hlen, h.size_eq]
    rfl

theorem Arranged.insert (h : t.Arranged) (he : t.names.Holds e.name) : (t.insert e).2.Arranged := by
  by_cases hp : t.names.path e.name = []
  · rw [insert_of_path_eq_nil hp]
    exact h
  · exact (h.insert_spec he hp).2.1

theorem Arranged.get?_insert (h : t.Arranged) (he : t.names.Holds e.name) {q : Path} (hq : q ≠ []) :
    (t.insert e).2.get? q = if q = t.names.path e.name then some e else t.get? q := by
  by_cases hp : t.names.path e.name = []
  · rw [insert_of_path_eq_nil hp, hp, if_neg hq]
  obtain ⟨-, harranged, hperm⟩ := h.insert_spec he hp
  ext x
  rw [harranged.get?_eq_some_iff, hperm.mem_iff]
  by_cases heq : q = t.names.path e.name
  · simp [heq, eq_comm]
  · simp [heq, h.get?_eq_some_iff]

/-- **Putting an entry** gives back what was bound to its path, and the tree stays well formed. The
entry is listed at its path, and all others where they were. -/
theorem insert_spec (h : t.WellFormed) (he : t.names.Holds e.name)
    (hp : segments (t.nameOf e) ≠ []) :
    (t.insert e).1 = t.binding (segments (t.nameOf e)) ∧ (t.insert e).2.WellFormed ∧
      (t.insert e).2.toList.Perm ((segments (t.nameOf e), e) ::
        t.toList.filter fun x => x.1 != segments (t.nameOf e)) := by
  have hpath : t.names.path e.name = segments (t.nameOf e) := NamePool.path_eq h.small he
  rw [← hpath] at hp ⊢
  obtain ⟨hold, harranged, hperm⟩ := h.arranged.insert_spec he hp
  refine ⟨hold.trans (h.get?_eq_binding _), harranged.wellFormed ?_, hperm⟩
  rw [names_insert]
  exact h.small

/-- **Putting an entry** binds its path to it and leaves every other path as it was. -/
theorem binding_insert (h : t.WellFormed) (he : t.names.Holds e.name)
    (hp : segments (t.nameOf e) ≠ []) (q : Path) :
    (t.insert e).2.binding q = if q = segments (t.nameOf e) then some e else t.binding q := by
  have hpath : t.names.path e.name = segments (t.nameOf e) := NamePool.path_eq h.small he
  rw [← (insert_spec h he hp).2.1.get?_eq_binding, ← h.get?_eq_binding]
  by_cases hq : q = []
  · rw [hq, if_neg hp.symm]
    rfl
  · rw [h.arranged.get?_insert he hq, hpath]

/-! ## Changing an entry -/

theorem toList_modify (h : t.Arranged) (p : Path) (f : Entry → Entry) :
    (t.modify p f).toList = t.toList.map fun x => (x.1, if x.1 = p then f x.2 else x.2) :=
  Node.toList_modify h.root f p

theorem Arranged.modify (h : t.Arranged) (p : Path) {f : Entry → Entry}
    (hf : ∀ e, (f e).name = e.name) : (t.modify p f).Arranged := by
  refine ⟨h.root.modify hf p, ?_⟩
  rw [toList_modify h, List.length_map]
  exact h.size_eq

theorem WellFormed.modify (h : t.WellFormed) (p : Path) {f : Entry → Entry}
    (hf : ∀ e, (f e).name = e.name) : (t.modify p f).WellFormed :=
  (h.arranged.modify p hf).wellFormed h.small

theorem lookup_map (l : List (Path × Entry)) (f : Path → Entry → Entry) (q : Path) :
    (l.map fun x => (x.1, f x.1 x.2)).lookup q = (l.lookup q).map (f q) := by
  induction l with
  | nil => rfl
  | cons x l ih =>
    obtain ⟨k, v⟩ := x
    rw [List.map_cons, List.lookup_cons, List.lookup_cons, ih]
    by_cases hk : q = k
    · subst hk
      rw [beq_self_eq_true]
      rfl
    · rw [beq_false_of_ne hk]

theorem binding_modify (h : t.WellFormed) (p : Path) (f : Entry → Entry) (q : Path) :
    (t.modify p f).binding q = if q = p then (t.binding q).map f else t.binding q := by
  rw [binding, toList_modify h.arranged,
    lookup_map t.toList (fun k e => if k = p then f e else e), binding]
  by_cases hq : q = p
  · simp only [if_pos hq]
  · simp only [if_neg hq, Option.map_id']

end Tree

end PakIndex
