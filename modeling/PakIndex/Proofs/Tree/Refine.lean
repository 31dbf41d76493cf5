import PakIndex.Proofs.Tree.Slots

/-!
# The tree refines a finite map

* `Tree.Change`, `Tree.run`: changes of a tree, and a sequence of them.
* `Tree.Arranged.step`, `Tree.Arranged.run`: they keep a tree arranged; `Tree.WellFormed.run`: and
  well formed.
* `Tree.ActsAsMap`: the operations of a tree are those of the map of its bindings.
* **`Tree.run_refines_map`**: so are those of every tree that changes lead to from the empty one.
-/

namespace PakIndex.Tree

variable {t : Tree} {refs : List NameRef}

/-- A change of a tree. -/
inductive Change
  /-- An entry is put. -/
  | insert (e : Entry)
  /-- The payload of the file at a path is given a place. -/
  | place (path : String) (offset : Option UInt32)
  /-- The slots are refreshed. -/
  | refresh (directoryOffset : UInt32)

/-- Whether the entry that a change puts, if it puts one, is named by one of `refs`. -/
def Change.NamedBy (refs : List NameRef) : Change → Prop
  | .insert e => e.name ∈ refs
  | _ => True

/-- The tree after a change. -/
def step (t : Tree) : Change → Tree
  | .insert e => (t.insert e).2
  | .place path offset => t.update path fun e => { e with dataOffset := offset }
  | .refresh directoryOffset => t.refreshSlots directoryOffset

/-- The tree after a sequence of changes. -/
def run (t : Tree) (changes : List Change) : Tree := changes.foldl step t

/-! ## What changes preserve -/

theorem Arranged.step (h : t.Arranged) (hrefs : ∀ r ∈ refs, t.names.Holds r) {c : Change}
    (hc : c.NamedBy refs) : (t.step c).Arranged ∧ (t.step c).names = t.names := by
  cases c with
  | insert e => exact ⟨h.insert (hrefs _ hc), names_insert t e⟩
  | place path offset => exact ⟨h.modify _ fun _ => rfl, rfl⟩
  | refresh directoryOffset =>
    obtain ⟨harranged, hnames, -⟩ := refreshSlots_spec h directoryOffset
    exact ⟨harranged, hnames⟩

theorem Arranged.run (h : t.Arranged) (hrefs : ∀ r ∈ refs, t.names.Holds r)
    {changes : List Change} (hc : ∀ c ∈ changes, c.NamedBy refs) :
    (t.run changes).Arranged ∧ (t.run changes).names = t.names := by
  induction changes generalizing t with
  | nil => exact ⟨h, rfl⟩
  | cons c changes ih =>
    obtain ⟨hc, hcs⟩ := List.forall_mem_cons.mp hc
    obtain ⟨harranged, hnames⟩ := h.step hrefs hc
    rw [← hnames]
    refine ih harranged (fun r hr => ?_) hcs
    rw [hnames]
    exact hrefs r hr

theorem WellFormed.run (h : t.WellFormed) (hrefs : ∀ r ∈ refs, t.names.Holds r)
    {changes : List Change} (hc : ∀ c ∈ changes, c.NamedBy refs) :
    (t.run changes).WellFormed ∧ (t.run changes).names = t.names := by
  obtain ⟨harranged, hnames⟩ := h.arranged.run hrefs hc
  refine ⟨harranged.wellFormed ?_, hnames⟩
  rw [hnames]
  exact h.small

theorem run_arranged {raws : List Bytes} {changes : List Change}
    (hc : ∀ c ∈ changes, c.NamedBy (NamePool.ofNames raws).1) :
    ((ofNames (NamePool.ofNames raws).2).run changes).Arranged ∧
      ((ofNames (NamePool.ofNames raws).2).run changes).names = (NamePool.ofNames raws).2 :=
  (arranged_ofNames _).run (fun _ hr => NamePool.holds_of_mem_ofNames hr) hc

/-! ## The operations as those of a map -/

/-- Whether the operations of a tree are those of the map of its bindings, as far as the entries
that are put are named by `refs`. -/
structure ActsAsMap (refs : List NameRef) (t : Tree) : Prop where
  insert_nil : ∀ e, e.name ∈ refs → segments (t.nameOf e) = [] → t.insert e = (none, t)
  insert_fst : ∀ e, e.name ∈ refs → segments (t.nameOf e) ≠ [] →
    (t.insert e).1 = t.binding (segments (t.nameOf e))
  insert_snd : ∀ e, e.name ∈ refs → segments (t.nameOf e) ≠ [] → ∀ q,
    (t.insert e).2.binding q = if q = segments (t.nameOf e) then some e else t.binding q
  find : ∀ path, t.find? path = t.binding (querySegments path)
  place : ∀ path offset q, (t.step (.place path offset)).binding q =
    if q = querySegments path then (t.binding q).map fun e => { e with dataOffset := offset }
    else t.binding q
  refresh : ∀ directoryOffset q, (t.step (.refresh directoryOffset)).binding q =
    (t.binding q).map fun e => { e with slotEnd := slotOf directoryOffset t.toList q }

theorem WellFormed.actsAsMap (h : t.WellFormed) (hrefs : ∀ r ∈ refs, t.names.Holds r) :
    t.ActsAsMap refs where
  insert_nil _ he hp := insert_of_segments_eq_nil h (hrefs _ he) hp
  insert_fst _ he hp := (insert_spec h (hrefs _ he) hp).1
  insert_snd _ he hp := binding_insert h (hrefs _ he) hp
  find _ := h.get?_eq_binding _
  place _ _ := binding_modify h _ _
  refresh _ := binding_refreshSlots h _

/-- **Every tree that changes lead to from the empty one is a finite map** from the segments of
names to entries: its shelves are in strict order, every file stands where the segments of its name
say, no subfolder is empty and the number of entries is right; and its operations are those of the
map. -/
theorem run_refines_map (raws : List Bytes) (hsize : (raws.map List.length).sum < 2 ^ 32)
    (changes : List Change) (hc : ∀ c ∈ changes, c.NamedBy (NamePool.ofNames raws).1) :
    let t := (ofNames (NamePool.ofNames raws).2).run changes
    t.names = (NamePool.ofNames raws).2 ∧ t.WellFormed ∧
      (∀ p e, t.binding p = some e → p = segments (t.nameOf e)) ∧
      t.ActsAsMap (NamePool.ofNames raws).1 := by
  intro t
  have hrefs : ∀ r ∈ (NamePool.ofNames raws).1, (NamePool.ofNames raws).2.Holds r :=
    fun r hr => NamePool.holds_of_mem_ofNames hr
  have hempty : (ofNames (NamePool.ofNames raws).2).WellFormed := by
    refine wellFormed_ofNames ?_
    rw [NamePool.size_ofNames]
    exact hsize
  obtain ⟨hwf, hnames⟩ := hempty.run hrefs hc
  have hnames : t.names = (NamePool.ofNames raws).2 := hnames
  refine ⟨hnames, hwf, fun p e he => hwf.path_of_mem (hwf.binding_eq_some_iff.mp he), ?_⟩
  refine hwf.actsAsMap fun r hr => ?_
  rw [hnames]
  exact hrefs r hr

/-- Two files under one path in two spellings, the second of which is given a place and a slot. -/
theorem run_refines_map_twice :
    let raws : List Bytes := [[0x41, 0x2F, 0x62], [0x61, 0x5C, 0x5C, 0x42]]
    let entry (i : Nat) : Entry := { (default : Entry) with
      name := (NamePool.ofNames raws).1.getD i default, headerOffset := .ofNat i }
    let changes : List Change :=
      [.insert (entry 0), .insert (entry 1), .place "a/b" (some 7), .refresh 9]
    let t := (ofNames (NamePool.ofNames raws).2).run changes
    t.WellFormed ∧ t.ActsAsMap (NamePool.ofNames raws).1 := by
  intro raws entry changes t
  have hc : ∀ c ∈ changes, c.NamedBy (NamePool.ofNames raws).1 := by
    have hentry : ∀ i < 2, (entry i).name ∈ (NamePool.ofNames raws).1 := by decide
    intro c hc
    simp only [changes, List.mem_cons, List.not_mem_nil, or_false] at hc
    rcases hc with rfl | rfl | rfl | rfl
    · exact hentry 0 (by decide)
    · exact hentry 1 (by decide)
    · trivial
    · trivial
  obtain ⟨-, hwf, -, hmap⟩ := run_refines_map raws (by decide) changes hc
  exact ⟨hwf, hmap⟩

end PakIndex.Tree
