import PakIndex.Proofs.Tree.InsertAll

/-!
# Changing all entries at once

* `Node.map`, `Tree.map`: the same folders with every entry changed by one function.
* `Shelf.alter_map`, `Shelf.modify_map`: a search looks at names only, so that putting and changing
  commute with this.
* **`Tree.map_insert`**, **`Tree.map_modify`**, **`Tree.map_refreshSlots`**: so do the changes of a
  tree.
* `Entry.unlocated`, `Tree.unlocated`: entries without the places of their payloads.
-/

namespace PakIndex

/-! ## Shelves -/

section Shelf

variable {α β γ δ : Type}

/-- A spot among as many things, counted otherwise. -/
def Spot.cast {m n : Nat} (h : m = n) : Spot m → Spot n
  | .found i => .found (i.cast h)
  | .gap i => .gap (i.cast (congrArg (· + 1) h))

theorem searchBetween_map (order : β → Ordering) (g : α → β) (a : Array α) {lo hi hi' : Nat}
    (hlo : lo ≤ hi) (hhi : hi ≤ a.size) (heq : hi' = hi) :
    searchBetween order (a.map g) lo hi' (heq ▸ hlo) (by simpa [heq] using hhi) =
      (searchBetween (order ∘ g) a lo hi hlo hhi).cast (Array.size_map).symm := by
  subst heq
  fun_induction searchBetween (order ∘ g) a lo hi' hlo hhi with
  | case1 lo hi _ _ h he =>
    rw [searchBetween, dif_pos h]
    simp only [Function.comp_apply] at he
    simp [he, Spot.cast]
  | case2 lo hi _ _ h he ih =>
    rw [searchBetween, dif_pos h]
    simp only [Function.comp_apply] at he
    simp [he, ih]
  | case3 lo hi _ _ h he ih =>
    rw [searchBetween, dif_pos h]
    simp only [Function.comp_apply] at he
    simp [he, ih]
  | case4 lo hi _ _ h =>
    rw [searchBetween, dif_neg h]
    simp [Spot.cast]

namespace Shelf

/-- The shelf on which everything is changed by `g`, under the same names. -/
def mapThings (g : α → β) (shelf : Shelf α) : Shelf β := Array.map (fun x => (x.1, g x.2)) shelf

variable (names : NamePool) (key : Bytes) (shelf : Shelf α)

theorem spot_map (g : α → β) : (shelf.mapThings g).spot names key =
    (shelf.spot names key).cast (Array.size_map).symm :=
  searchBetween_map _ (fun x : NameRef × α => (x.1, g x.2)) shelf _ _ Array.size_map

theorem get?_map (g : α → β) :
    (shelf.mapThings g).get? names key = (shelf.get? names key).map g := by
  rw [get?, get?, spot_map]
  cases shelf.spot names key <;> simp [Spot.cast, mapThings]

theorem alter_map [Inhabited α] [Inhabited β] (g : α → β) (k : γ → δ)
    {f : Option (NameRef × α) → γ × (NameRef × α)} {f' : Option (NameRef × β) → δ × (NameRef × β)}
    (hf : ∀ o, f' (o.map fun x => (x.1, g x.2)) = (k (f o).1, ((f o).2.1, g (f o).2.2))) :
    alter names key (shelf.mapThings g) f' =
      (k (alter names key shelf f).1, (alter names key shelf f).2.mapThings g) := by
  rw [alter, alter, spot_map]
  cases shelf.spot names key with
  | found i =>
    have hf := hf (some shelf[i])
    simp only [Option.map_some, Fin.getElem_fin] at hf
    simp [Spot.cast, mapThings, hf]
  | gap i =>
    have hf := hf none
    simp only [Option.map_none] at hf
    have hinsert (y : NameRef × α) : (Array.map (fun x => (x.1, g x.2)) shelf).insertIdx i
        (y.1, g y.2) (by simp; omega) = (shelf.insertIdx i y).map fun x => (x.1, g x.2) := by
      apply Array.toList_inj.mp
      simp [List.map_insertIdx]
    simp [Spot.cast, mapThings, hf, hinsert]

theorem modify_map (g : α → β) {f : α → α} {f' : β → β} (hf : ∀ x, g (f x) = f' (g x)) :
    (modify names key shelf f).mapThings g = modify names key (shelf.mapThings g) f' := by
  rw [modify, modify, spot_map]
  cases shelf.spot names key with
  | found i =>
    apply Array.ext
    · simp [Spot.cast, mapThings]
    · intro j hj hj'
      simp [Spot.cast, mapThings, Array.getElem_modify]
      split <;> simp [hf]
  | gap i => rfl

theorem modify_eq_self {f : α → α} (hf : ∀ x, shelf.get? names key = some x → f x = x) :
    modify names key shelf f = shelf := by
  rw [modify]
  rw [get?] at hf
  cases hspot : shelf.spot names key with
  | found i =>
    simp only [hspot] at hf
    have hfi := hf _ rfl
    apply Array.ext
    · simp
    · intro j hj hj'
      rw [Array.getElem_modify]
      split
      · rename_i h
        subst h
        exact Prod.ext rfl hfi
      · rfl
  | gap i => rfl

end Shelf

end Shelf

/-! ## Folders -/

namespace Node

mutual

/-- The folder with every entry below it changed by `f`. -/
def map (f : Entry → Entry) : Node → Node
  | .mk folders files => .mk (mapFolders f folders) (Shelf.mapThings f files)

/-- Subfolders with every entry below them changed. -/
def mapFolders (f : Entry → Entry) : Array (NameRef × Node) → Array (NameRef × Node)
  | ⟨folders⟩ => ⟨mapFolderList f folders⟩

/-- A list of subfolders with every entry below them changed. -/
def mapFolderList (f : Entry → Entry) : List (NameRef × Node) → List (NameRef × Node)
  | [] => []
  | folder :: rest => mapFolder f folder :: mapFolderList f rest

/-- A subfolder under a name with every entry below it changed. -/
def mapFolder (f : Entry → Entry) : NameRef × Node → NameRef × Node
  | (r, child) => (r, map f child)

end

variable {names : NamePool} {n : Node} {e : Entry} (f : Entry → Entry)

theorem map_mk (folders : Array (NameRef × Node)) (files : Array (NameRef × Entry)) :
    map f (mk folders files) = mk (Shelf.mapThings (map f) folders) (Shelf.mapThings f files) := by
  have hl : ∀ l : List (NameRef × Node), mapFolderList f l = l.map fun x => (x.1, map f x.2) := by
    intro l
    induction l with
    | nil => rfl
    | cons x l ih => rw [mapFolderList, ih, mapFolder, List.map_cons]
  have hfolders : mapFolders f folders = Shelf.mapThings (map f) folders := by
    rw [mapFolders, hl]
    apply Array.toList_inj.mp
    simp [Shelf.mapThings]
  rw [map, hfolders]

@[simp] theorem map_empty : map f empty = empty := by
  simp [empty, map_mk, Shelf.mapThings]

mutual

theorem toList_map : ∀ n : Node,
    toList names (map f n) = (toList names n).map fun x => (x.1, f x.2)
  | .mk folders files => by
    rw [map, toList, toList, ofFolders_map folders]
    simp [Shelf.mapThings, Function.comp_def]

theorem ofFolders_map : ∀ folders : Array (NameRef × Node),
    ofFolders names (mapFolders f folders) =
      (ofFolders names folders).map fun x => (x.1, f x.2)
  | ⟨folders⟩ => by rw [mapFolders, ofFolders, ofFolders, ofFolderList_map folders]

theorem ofFolderList_map : ∀ folders : List (NameRef × Node),
    ofFolderList names (mapFolderList f folders) =
      (ofFolderList names folders).map fun x => (x.1, f x.2)
  | [] => rfl
  | folder :: rest => by
    rw [mapFolderList, ofFolderList, ofFolderList, ofFolder_map folder, ofFolderList_map rest,
      List.map_append]

theorem ofFolder_map : ∀ folder : NameRef × Node,
    ofFolder names (mapFolder f folder) = (ofFolder names folder).map fun x => (x.1, f x.2)
  | (r, child) => by
    rw [mapFolder, ofFolder, ofFolder, toList_map child]
    simp [Function.comp_def]

end

theorem get?_map (p : Path) (n : Node) : get? names p (map f n) = (get? names p n).map f := by
  induction p generalizing n with
  | nil => rfl
  | cons key rest ih =>
    obtain ⟨folders, files⟩ := n
    cases rest with
    | nil =>
      rw [map_mk]
      exact Shelf.get?_map names key files f
    | cons key' rest =>
      rw [get?_cons (by simp), get?_cons (by simp), map_mk]
      simp only [Node.folders, Shelf.get?_map, Option.bind_map, Option.map_bind]
      congr 1
      funext child
      exact ih child

theorem map_insert (refs : List NameRef) (n : Node) : insert names (f e) refs (map f n) =
    ((insert names e refs n).1.map f, map f (insert names e refs n).2) := by
  -- Along the path: a folder that is missing is taken for the empty one, which has no entries.
  induction refs generalizing n with
  | nil => rfl
  | cons part rest ih =>
    obtain ⟨folders, files⟩ := n
    by_cases hrest : rest = []
    · subst hrest
      rw [map_mk, insert_leaf, insert_leaf, map_mk,
        Shelf.alter_map names _ files f (Option.map f) (f := fun old? =>
          (old?.map Prod.snd, (part, e)))]
      intro o
      cases o <;> rfl
    · rw [map_mk, insert_cons part hrest, insert_cons part hrest, map_mk,
        Shelf.alter_map names _ folders (map f) (Option.map f) (f := insertBelow names e part rest)]
      intro o
      have hempty := ih empty
      rw [map_empty] at hempty
      cases o with
      | none => simp [insertBelow, hempty]
      | some x => simp [insertBelow, ih]

theorem map_modify {g g' : Entry → Entry} (hg : ∀ e, f (g e) = g' (f e)) (p : Path) (n : Node) :
    map f (modify names g p n) = modify names g' p (map f n) := by
  induction p generalizing n with
  | nil => rfl
  | cons key rest ih =>
    obtain ⟨folders, files⟩ := n
    by_cases hrest : rest = []
    · subst hrest
      rw [modify_mk_leaf, map_mk, map_mk, modify_mk_leaf, Shelf.modify_map names key files f hg]
    · rw [modify_mk_cons g key hrest, map_mk, map_mk, modify_mk_cons g' key hrest,
        Shelf.modify_map names key folders (map f) ih]

theorem modify_eq_self {p : Path} (hf : ∀ e, get? names p n = some e → f e = e) :
    modify names f p n = n := by
  induction p generalizing n with
  | nil => rfl
  | cons key rest ih =>
    obtain ⟨folders, files⟩ := n
    by_cases hrest : rest = []
    · subst hrest
      rw [modify_mk_leaf, Shelf.modify_eq_self names key files hf]
    · rw [modify_mk_cons f key hrest, Shelf.modify_eq_self]
      intro child hchild
      apply ih
      intro e he
      apply hf
      rw [get?_cons hrest]
      show (Shelf.get? names key folders).bind _ = some e
      rw [hchild]
      exact he

end Node

/-! ## Trees -/

namespace Tree

variable (f : Entry → Entry) (t : Tree)

/-- The tree with every entry changed by `f`. -/
def map : Tree := { t with root := t.root.map f }

theorem names_map : (t.map f).names = t.names := rfl

theorem map_ofNames (names : NamePool) : (ofNames names).map f = ofNames names := by
  simp [map, ofNames]

theorem toList_map : (t.map f).toList = t.toList.map fun x => (x.1, f x.2) :=
  Node.toList_map f t.root

theorem find?_map (path : String) : (t.map f).find? path = (t.find? path).map f :=
  Node.get?_map f (querySegments path) t.root

variable {f t}

/-- **Putting an entry** commutes with changing all entries. -/
theorem map_insert (hname : ∀ e, (f e).name = e.name) (e : Entry) :
    (t.map f).insert (f e) = ((t.insert e).1.map f, (t.insert e).2.map f) := by
  rw [insert, insert, hname, names_map]
  split
  · rfl
  · rename_i path _
    have h : Node.insert t.names (f e) _ _ = _ :=
      Node.map_insert f (t.names.segments e.name) t.root
    simp only [map, h, Option.isSome_map]

theorem map_insertAll (hname : ∀ e, (f e).name = e.name) (es : List Entry) :
    (t.insertAll es).map f = (t.map f).insertAll (es.map f) := by
  induction es generalizing t with
  | nil => rfl
  | cons e es ih => rw [insertAll_cons, ih, List.map_cons, insertAll_cons, map_insert hname]

/-- **Changing an entry** commutes with changing all entries. -/
theorem map_modify {g k : Entry → Entry} (hg : ∀ e, f (g e) = k (f e)) (p : Path) :
    (t.modify p g).map f = (t.map f).modify p k := by
  simp only [map, modify, Node.map_modify f hg]

theorem map_modify_of_eq {g : Entry → Entry} (hg : ∀ e, f (g e) = f e) (p : Path) :
    (t.modify p g).map f = t.map f := by
  rw [map_modify (k := id) hg]
  simp only [map, modify, Node.modify_eq_self id fun _ _ => rfl]

theorem modify_eq_self {p : Path} (hf : ∀ e, t.get? p = some e → f e = e) : t.modify p f = t := by
  rw [modify, Node.modify_eq_self f hf]

/-- **Refreshing the slots** commutes with changing what slots do not depend on. -/
theorem map_refreshSlots (hoffset : ∀ e, (f e).headerOffset = e.headerOffset)
    (hslot : ∀ e stop, f { e with slotEnd := stop } = { f e with slotEnd := stop })
    (stop : UInt32) : (t.refreshSlots stop).map f = (t.map f).refreshSlots stop := by
  have hsorted : (t.map f).byHeader = t.byHeader.map fun x => (x.1, f x.2) := by
    rw [byHeader, toList_map, sortByHeader, byHeader, sortByHeader, List.map_mergeSort]
    intro x _ y _
    simp [hoffset]
  have hends : slotEnds stop (t.map f).byHeader = slotEnds stop t.byHeader := by
    rw [hsorted]
    simp [slotEnds, Function.comp_def, hoffset]
  rw [refreshSlots, refreshSlots, hends]
  clear hsorted hends
  generalize slotEnds stop t.byHeader = ends
  induction ends generalizing t with
  | nil => rfl
  | cons x ends ih =>
    rw [List.foldl_cons, List.foldl_cons, ih,
      map_modify (k := fun e => { e with slotEnd := x.2 }) fun e => hslot e x.2]

end Tree

/-! ## Without the places of payloads -/

/-- The entry without the place of its payload. -/
def Entry.unlocated (e : Entry) : Entry := { e with dataOffset := none }

/-- The tree without the places of payloads. -/
def Tree.unlocated (t : Tree) : Tree := t.map Entry.unlocated

theorem Tree.mem_of_unlocated {t t' : Tree} {p : Path} {e : Entry}
    (h : t'.unlocated = t.unlocated) (he : (p, e) ∈ t'.toList) :
    ∃ e', (p, e') ∈ t.toList ∧ e'.unlocated = e.unlocated := by
  have hmem : (p, e.unlocated) ∈ t'.unlocated.toList := by
    rw [unlocated, toList_map]
    exact List.mem_map_of_mem (f := fun x : Path × Entry => (x.1, x.2.unlocated)) he
  rw [h, unlocated, toList_map] at hmem
  obtain ⟨⟨q, e'⟩, he', heq⟩ := List.mem_map.mp hmem
  obtain ⟨rfl, hunlocated⟩ := Prod.mk.inj heq
  exact ⟨e', he', hunlocated⟩

theorem Tree.length_entries_of_unlocated {t t' : Tree} (h : t'.unlocated = t.unlocated) :
    t'.entries.length = t.entries.length := by
  have hlength := congrArg (fun t : Tree => t.toList.length) h
  simp only [unlocated, toList_map, List.length_map] at hlength
  rw [entries, entries, List.length_map, List.length_map, hlength]

end PakIndex
