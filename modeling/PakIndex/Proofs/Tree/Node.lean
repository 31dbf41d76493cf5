import PakIndex.Tree.Node
import PakIndex.Proofs.Name.Pool
import PakIndex.Proofs.Tree.Shelf

/-!
# Folders as maps from paths to entries

* `Node.WellFormed`: every shelf is in strict order, every file stands at the path that its name
  spells, and no subfolder is empty.
* **`Node.get?_eq_some_iff`**: what is found at a path is what is listed there.
* **`Node.insert_spec`**, **`Node.toList_modify`**: what putting and changing a file do to the list
  of all files.
-/

namespace PakIndex.Node

variable {names : NamePool} {n : Node} {e : Entry} {p : Path}

/-! ## The list of files -/

theorem toList_mk (folders : Array (NameRef × Node)) (files : Array (NameRef × Entry)) :
    toList names (mk folders files) = (files.toList.map fun x => ([names.get x.1], x.2)) ++
      folders.toList.flatMap fun x =>
        (toList names x.2).map fun y => (names.get x.1 :: y.1, y.2) := by
  have hl : ∀ l : List (NameRef × Node), ofFolderList names l = l.flatMap fun x =>
      (toList names x.2).map fun y => (names.get x.1 :: y.1, y.2) := by
    intro l
    induction l with
    | nil => rfl
    | cons x l ih =>
      rw [ofFolderList, ih, List.flatMap_cons, ofFolder]
  rw [toList, ofFolders, hl]

theorem mem_toList_mk {folders : Array (NameRef × Node)} {files : Array (NameRef × Entry)} :
    (p, e) ∈ toList names (mk folders files) ↔
      (∃ r, (r, e) ∈ files.toList ∧ p = [names.get r]) ∨
      ∃ r child q, (r, child) ∈ folders.toList ∧ (q, e) ∈ toList names child ∧
        p = names.get r :: q := by
  rw [toList_mk, List.mem_append, List.mem_map, List.mem_flatMap]
  constructor
  · rintro (⟨⟨r, x⟩, hx, he⟩ | ⟨⟨r, child⟩, hx, hy⟩)
    · cases he
      exact .inl ⟨r, hx, rfl⟩
    · obtain ⟨⟨q, x⟩, hq, he⟩ := List.mem_map.mp hy
      cases he
      exact .inr ⟨r, child, q, hx, hq, rfl⟩
  · rintro (⟨r, hx, rfl⟩ | ⟨r, child, q, hx, hq, rfl⟩)
    · exact .inl ⟨(r, e), hx, rfl⟩
    · exact .inr ⟨(r, child), hx, List.mem_map.mpr ⟨(q, e), hq, rfl⟩⟩

theorem ne_nil_of_mem_toList (h : (p, e) ∈ toList names n) : p ≠ [] := by
  cases n with
  | mk folders files =>
    rcases mem_toList_mk.mp h with ⟨r, -, rfl⟩ | ⟨r, child, q, -, -, rfl⟩ <;>
      exact List.cons_ne_nil _ _

theorem mem_toList_singleton {folders : Array (NameRef × Node)} {files : Array (NameRef × Entry)}
    {leaf : Bytes} : ([leaf], e) ∈ toList names (mk folders files) ↔
      ∃ r, (r, e) ∈ files.toList ∧ names.get r = leaf := by
  rw [mem_toList_mk]
  constructor
  · rintro (⟨r, hr, h⟩ | ⟨r, child, q, -, hq, h⟩)
    · exact ⟨r, hr, (List.cons.inj h).1.symm⟩
    · exact absurd (List.cons.inj h).2.symm (ne_nil_of_mem_toList hq)
  · rintro ⟨r, hr, rfl⟩
    exact .inl ⟨r, hr, rfl⟩

theorem mem_toList_cons {folders : Array (NameRef × Node)} {files : Array (NameRef × Entry)}
    {key : Bytes} (hp : p ≠ []) : (key :: p, e) ∈ toList names (mk folders files) ↔
      ∃ r child, (r, child) ∈ folders.toList ∧ names.get r = key ∧ (p, e) ∈ toList names child := by
  rw [mem_toList_mk]
  constructor
  · rintro (⟨r, -, h⟩ | ⟨r, child, q, hr, hq, h⟩)
    · exact absurd (List.cons.inj h).2 hp
    · obtain ⟨rfl, rfl⟩ := List.cons.inj h
      exact ⟨r, child, hr, rfl, hq⟩
  · rintro ⟨r, child, hr, rfl, hq⟩
    exact .inr ⟨r, child, p, hr, hq, rfl⟩

/-! ## Well-formed folders -/

/-- Whether a folder at a path is well formed: names increase strictly on both shelves and are in
the pool, every file stands where its own name says, and every subfolder is well formed and has a
file below it. -/
inductive WellFormed (names : NamePool) : Path → Node → Prop
  | mk {at_ : Path} {folders : Array (NameRef × Node)} {files : Array (NameRef × Entry)}
      (sortedFolders : Shelf.Sorted names folders) (sortedFiles : Shelf.Sorted names files)
      (heldFolders : ∀ x ∈ folders.toList, names.Holds x.1)
      (heldFiles : ∀ x ∈ files.toList, names.Holds x.1 ∧ names.Holds x.2.name)
      (placed : ∀ x ∈ files.toList, names.path x.2.name = at_ ++ [names.get x.1])
      (inhabited : ∀ x ∈ folders.toList, toList names x.2 ≠ [])
      (below : ∀ x ∈ folders.toList, WellFormed names (at_ ++ [names.get x.1]) x.2) :
      WellFormed names at_ (mk folders files)

/-- Whether a file fits where it stands, in a folder at a path. -/
def FitsFile (names : NamePool) (at_ : Path) (x : NameRef × Entry) : Prop :=
  (names.Holds x.1 ∧ names.Holds x.2.name) ∧ names.path x.2.name = at_ ++ [names.get x.1]

/-- Whether a subfolder fits where it stands. -/
def FitsFolder (names : NamePool) (at_ : Path) (x : NameRef × Node) : Prop :=
  names.Holds x.1 ∧ toList names x.2 ≠ [] ∧ x.2.WellFormed names (at_ ++ [names.get x.1])

theorem wellFormed_mk_iff {at_ : Path} {folders : Array (NameRef × Node)}
    {files : Array (NameRef × Entry)} : (mk folders files).WellFormed names at_ ↔
      Shelf.Sorted names folders ∧ Shelf.Sorted names files ∧
        (∀ x ∈ folders.toList, FitsFolder names at_ x) ∧
        ∀ x ∈ files.toList, FitsFile names at_ x := by
  constructor
  · rintro ⟨h₁, h₂, hheld, hheldFiles, hplaced, hinhabited, hbelow⟩
    exact ⟨h₁, h₂, fun x hx => ⟨hheld x hx, hinhabited x hx, hbelow x hx⟩,
      fun x hx => ⟨hheldFiles x hx, hplaced x hx⟩⟩
  · rintro ⟨h₁, h₂, hfolders, hfiles⟩
    exact .mk h₁ h₂ (fun x hx => (hfolders x hx).1) (fun x hx => (hfiles x hx).1)
      (fun x hx => (hfiles x hx).2) (fun x hx => (hfolders x hx).2.1)
      fun x hx => (hfolders x hx).2.2

theorem wellFormed_empty (at_ : Path) : WellFormed names at_ empty :=
  .mk .nil .nil (by simp) (by simp) (by simp) (by simp) (by simp)

theorem get?_cons {key : Bytes} (hp : p ≠ []) :
    get? names (key :: p) n = (n.folders.get? names key).bind (get? names p) := by
  cases p with
  | nil => exact absurd rfl hp
  | cons key' p =>
    simp only [get?]
    cases n.folders.get? names key <;> rfl

/-- **What is found at a path is what is listed there.** -/
theorem get?_eq_some_iff {at_ : Path} (h : n.WellFormed names at_) :
    n.get? names p = some e ↔ (p, e) ∈ toList names n := by
  induction p generalizing n at_ with
  | nil => exact ⟨nofun, fun h => absurd rfl (ne_nil_of_mem_toList h)⟩
  | cons key rest ih =>
    obtain ⟨hfolders, hfiles, -, -, -, -, hbelow⟩ := h
    by_cases hrest : rest = []
    · subst hrest
      rw [mem_toList_singleton]
      exact Shelf.get?_eq_some_iff hfiles
    · rw [mem_toList_cons hrest, get?_cons hrest, Option.bind_eq_some_iff]
      constructor
      · rintro ⟨child, hc, h⟩
        obtain ⟨r, hr, hk⟩ := (Shelf.get?_eq_some_iff hfolders).mp hc
        exact ⟨r, child, hr, hk, (ih (hbelow _ hr)).mp h⟩
      · rintro ⟨r, child, hr, hk, hq⟩
        exact ⟨child, (Shelf.get?_eq_some_iff hfolders).mpr ⟨r, hr, hk⟩,
          (ih (hbelow _ hr)).mpr hq⟩

theorem path_of_mem_toList {at_ : Path} (h : n.WellFormed names at_)
    (he : (p, e) ∈ toList names n) : names.path e.name = at_ ++ p := by
  induction h generalizing p with
  | @mk at_ folders files _ _ _ _ hplaced _ _ ih =>
    rcases mem_toList_mk.mp he with ⟨r, hr, rfl⟩ | ⟨r, child, q, hr, hq, rfl⟩
    · exact hplaced _ hr
    · rw [ih _ hr hq, List.append_assoc]
      rfl

theorem holds_of_mem_toList {at_ : Path} (h : n.WellFormed names at_)
    (he : (p, e) ∈ toList names n) : names.Holds e.name := by
  induction h generalizing p with
  | mk _ _ _ hheld _ _ _ ih =>
    rcases mem_toList_mk.mp he with ⟨r, hr, -⟩ | ⟨r, child, q, hr, hq, -⟩
    · exact (hheld _ hr).2
    · exact ih _ hr hq

/-! ## Putting a file -/

theorem insert_leaf (leaf : NameRef) (folders : Array (NameRef × Node))
    (files : Array (NameRef × Entry)) :
    insert names e [leaf] (mk folders files) =
      ((Shelf.alter names (names.get leaf) files fun old? => (old?.map Prod.snd, (leaf, e))).1,
        mk folders
          (Shelf.alter names (names.get leaf) files fun old? =>
            (old?.map Prod.snd, (leaf, e))).2) :=
  rfl

/-- What becomes of the subfolder on the way to a file that is put. -/
def insertBelow (names : NamePool) (e : Entry) (part : NameRef) (rest : List NameRef)
    (child? : Option (NameRef × Node)) : Option Entry × (NameRef × Node) :=
  ((insert names e rest (child?.getD (part, empty)).2).1,
    ((child?.getD (part, empty)).1, (insert names e rest (child?.getD (part, empty)).2).2))

theorem insert_cons (part : NameRef) {rest : List NameRef} (hrest : rest ≠ [])
    (folders : Array (NameRef × Node)) (files : Array (NameRef × Entry)) :
    insert names e (part :: rest) (mk folders files) =
      ((Shelf.alter names (names.get part) folders (insertBelow names e part rest)).1,
        mk (Shelf.alter names (names.get part) folders (insertBelow names e part rest)).2
          files) := by
  cases rest with
  | nil => exact absurd rfl hrest
  | cons part' rest => rfl

theorem get?_empty (p : Path) : empty.get? names p = none := by
  rw [Option.eq_none_iff_forall_ne_some]
  intro e he
  exact List.not_mem_nil ((get?_eq_some_iff (wellFormed_empty [])).mp he)

theorem mem_toList_putFile {folders : Array (NameRef × Node)}
    {files files' : Array (NameRef × Entry)} {leaf : NameRef} (hmem : ∀ z, z ∈ files'.toList ↔
      z = (leaf, e) ∨ z ∈ files.toList ∧ names.get z.1 ≠ names.get leaf) (q : Path) (x : Entry) :
    (q, x) ∈ toList names (mk folders files') ↔ q = [names.get leaf] ∧ x = e ∨
      q ≠ [names.get leaf] ∧ (q, x) ∈ toList names (mk folders files) := by
  rw [mem_toList_mk, mem_toList_mk]
  constructor
  · rintro (⟨r, hr, rfl⟩ | ⟨r, child, q', hr, hq', rfl⟩)
    · rcases (hmem _).mp hr with hr | ⟨hr, hk⟩
      · cases hr
        exact .inl ⟨rfl, rfl⟩
      · exact .inr ⟨fun h => hk (List.cons.inj h).1, .inl ⟨r, hr, rfl⟩⟩
    · refine .inr ⟨fun h => ?_, .inr ⟨r, child, q', hr, hq', rfl⟩⟩
      exact ne_nil_of_mem_toList hq' (List.cons.inj h).2
  · rintro (⟨rfl, rfl⟩ | ⟨hq, ⟨r, hr, rfl⟩ | hf⟩)
    · exact .inl ⟨leaf, (hmem _).mpr (.inl rfl), rfl⟩
    · exact .inl ⟨r, (hmem _).mpr (.inr ⟨hr, fun h => hq (by rw [h])⟩), rfl⟩
    · exact .inr hf

theorem mem_toList_putFolder {folders folders' : Array (NameRef × Node)}
    {files : Array (NameRef × Entry)} {r : NameRef} {child : Node} {key : Bytes}
    (hkey : names.get r = key) (hmem : ∀ z, z ∈ folders'.toList ↔
      z = (r, child) ∨ z ∈ folders.toList ∧ names.get z.1 ≠ key) (q : Path) (x : Entry) :
    (q, x) ∈ toList names (mk folders' files) ↔
      (∃ q', q = key :: q' ∧ (q', x) ∈ toList names child) ∨
      (∀ q' ≠ [], q ≠ key :: q') ∧ (q, x) ∈ toList names (mk folders files) := by
  rw [mem_toList_mk, mem_toList_mk]
  constructor
  · rintro (⟨r', hr', rfl⟩ | ⟨r', child', q', hr', hq', rfl⟩)
    · exact .inr ⟨fun q' hq' h => hq' (List.cons.inj h).2.symm, .inl ⟨r', hr', rfl⟩⟩
    · rcases (hmem _).mp hr' with heq | ⟨hr', hk⟩
      · cases heq
        exact .inl ⟨q', by rw [hkey], hq'⟩
      · exact .inr ⟨fun q'' _ h => hk (List.cons.inj h).1, .inr ⟨r', child', q', hr', hq', rfl⟩⟩
  · rintro (⟨q', rfl, hq'⟩ | ⟨hne, hf | ⟨r', child', q', hr', hq', rfl⟩⟩)
    · exact .inr ⟨r, child, q', (hmem _).mpr (.inl rfl), hq', by rw [hkey]⟩
    · exact .inl hf
    · have hk : names.get r' ≠ key := fun h => hne q' (ne_nil_of_mem_toList hq') (by rw [h])
      exact .inr ⟨r', child', q', (hmem _).mpr (.inr ⟨hr', hk⟩), hq', rfl⟩

/-- What was listed below a name, where `o` is what the search for the name came to. -/
theorem mem_toList_child {folders : Array (NameRef × Node)} {files : Array (NameRef × Entry)}
    {part : NameRef} {o : Option (NameRef × Node)} (hsorted : Shelf.Sorted names folders)
    (ho : o.map Prod.snd = Shelf.get? names (names.get part) folders) (hp : p ≠ []) :
    (names.get part :: p, e) ∈ toList names (mk folders files) ↔
      (p, e) ∈ toList names (o.getD (part, empty)).2 := by
  rw [mem_toList_cons hp]
  constructor
  · rintro ⟨r, child, hr, hk, hp⟩
    rw [(Shelf.get?_eq_some_iff hsorted).mpr ⟨r, hr, hk⟩, Option.map_eq_some_iff] at ho
    obtain ⟨x, rfl, rfl⟩ := ho
    exact hp
  · intro h
    cases o with
    | none => exact absurd h List.not_mem_nil
    | some x =>
      obtain ⟨r, hr, hk⟩ := (Shelf.get?_eq_some_iff hsorted).mp ho.symm
      exact ⟨r, x.2, hr, hk, h⟩

theorem insert_leaf_spec {leaf : NameRef} {at_ : Path} (h : n.WellFormed names at_)
    (hleaf : names.Holds leaf) (he : names.Holds e.name)
    (hpath : names.path e.name = at_ ++ [names.get leaf]) :
    (insert names e [leaf] n).1 = n.get? names [names.get leaf] ∧
      (insert names e [leaf] n).2.WellFormed names at_ ∧
      ∀ q x, (q, x) ∈ toList names (insert names e [leaf] n).2 ↔
        q = [names.get leaf] ∧ x = e ∨ q ≠ [names.get leaf] ∧ (q, x) ∈ toList names n := by
  obtain ⟨folders, files⟩ := n
  obtain ⟨hfolders, hfiles, hfitFolders, hfitFiles⟩ := wellFormed_mk_iff.mp h
  rw [insert_leaf]
  obtain ⟨o, -, hold, hout, hsorted, hmem⟩ := Shelf.alter_spec hfiles (names.get leaf)
    (fun old? => (old?.map Prod.snd, (leaf, e))) fun _ _ => rfl
  generalize Shelf.alter names (names.get leaf) files _ = out at hout hsorted hmem ⊢
  refine ⟨by rw [hout]; exact hold, ?_, mem_toList_putFile hmem⟩
  refine wellFormed_mk_iff.mpr ⟨hfolders, hsorted, hfitFolders, fun x hx => ?_⟩
  rcases (hmem x).mp hx with rfl | hx
  · exact ⟨⟨hleaf, he⟩, hpath⟩
  · exact hfitFiles x hx.1

/-- **Putting a file** gives back what was found at its path, keeps the folder well formed, and
lists the new file at that path and all others where they were. -/
theorem insert_spec {refs : List NameRef} (hrefs : refs ≠ []) {at_ : Path}
    (h : n.WellFormed names at_) (hheld : ∀ r ∈ refs, names.Holds r) (he : names.Holds e.name)
    (hpath : names.path e.name = at_ ++ refs.map names.get) :
    (insert names e refs n).1 = n.get? names (refs.map names.get) ∧
      (insert names e refs n).2.WellFormed names at_ ∧
      ∀ q x, (q, x) ∈ toList names (insert names e refs n).2 ↔
        q = refs.map names.get ∧ x = e ∨ q ≠ refs.map names.get ∧ (q, x) ∈ toList names n := by
  induction refs generalizing n at_ with
  | nil => exact absurd rfl hrefs
  | cons part rest ih =>
    obtain ⟨hpart, hrestHeld⟩ := List.forall_mem_cons.mp hheld
    by_cases hrest : rest = []
    · subst hrest
      exact insert_leaf_spec h hpart he hpath
    obtain ⟨folders, files⟩ := n
    obtain ⟨hfolders, hfiles, hfitFolders, hfitFiles⟩ := wellFormed_mk_iff.mp h
    have hmap : rest.map names.get ≠ [] := fun h => hrest (List.map_eq_nil_iff.mp h)
    have hkey : ∀ o : Option (NameRef × Node), (∀ x, o = some x → names.get x.1 = names.get part) →
        names.get (o.getD (part, empty)).1 = names.get part := by
      rintro (_ | x) ho
      · rfl
      · exact ho x rfl
    obtain ⟨o, ho, hold, hout, hsorted, hmem⟩ :=
      Shelf.alter_spec hfolders (names.get part) (insertBelow names e part rest) hkey
    have hkeyo := hkey o fun x hx => (ho x hx).2
    have hheldo : names.Holds (o.getD (part, empty)).1 := by
      cases o with
      | none => exact hpart
      | some x => exact (hfitFolders x (ho x rfl).1).1
    have hchild : (o.getD (part, empty)).2.WellFormed names (at_ ++ [names.get part]) := by
      cases o with
      | none => exact wellFormed_empty _
      | some x =>
        obtain ⟨hx, hk⟩ := ho x rfl
        rw [← hk]
        exact (hfitFolders x hx).2.2
    -- What is put below the subfolder is put there by the same function.
    obtain ⟨hold', hwf', hmem'⟩ := ih hrest hchild hrestHeld (by rw [hpath, List.append_assoc]; rfl)
    rw [insert_cons part hrest, List.map_cons]
    generalize Shelf.alter names (names.get part) folders _ = out at hout hsorted hmem ⊢
    refine ⟨?_, ?_, fun q x => ?_⟩
    · rw [hout, get?_cons hmap]
      show (insert names e rest (o.getD (part, empty)).2).1 =
        (Shelf.get? names (names.get part) folders).bind _
      rw [hold', ← hold]
      cases o with
      | none => exact get?_empty _
      | some x => rfl
    · refine wellFormed_mk_iff.mpr ⟨hsorted, hfiles, fun x hx => ?_, hfitFiles⟩
      rcases (hmem x).mp hx with rfl | hx
      · refine ⟨hheldo, List.ne_nil_of_mem ((hmem' _ e).mpr (.inl ⟨rfl, rfl⟩)), ?_⟩
        show WellFormed names (at_ ++ [names.get (o.getD (part, empty)).1]) _
        rw [hkeyo]
        exact hwf'
      · exact hfitFolders x hx.1
    · rw [mem_toList_putFolder hkeyo hmem]
      constructor
      · rintro (⟨q', rfl, hq'⟩ | ⟨hne, hq⟩)
        · rcases (hmem' q' x).mp hq' with ⟨rfl, rfl⟩ | ⟨hne, hq⟩
          · exact .inl ⟨rfl, rfl⟩
          · exact .inr ⟨fun h => hne (List.cons.inj h).2,
              (mem_toList_child hfolders hold (ne_nil_of_mem_toList hq)).mpr hq⟩
        · exact .inr ⟨hne _ hmap, hq⟩
      · rintro (⟨rfl, rfl⟩ | ⟨hne, hq⟩)
        · exact .inl ⟨_, rfl, (hmem' _ _).mpr (.inl ⟨rfl, rfl⟩)⟩
        · by_cases hbelow : ∃ q' ≠ [], q = names.get part :: q'
          · obtain ⟨q', hq', rfl⟩ := hbelow
            refine .inl ⟨q', rfl, (hmem' q' x).mpr (.inr ⟨fun h => hne (by rw [h]), ?_⟩)⟩
            exact (mem_toList_child hfolders hold hq').mp hq
          · exact .inr ⟨fun q' hq' h => hbelow ⟨q', hq', h⟩, hq⟩

/-! ## Changing a file -/

theorem modify_mk_leaf (f : Entry → Entry) (leaf : Bytes) (folders : Array (NameRef × Node))
    (files : Array (NameRef × Entry)) : modify names f [leaf] (mk folders files) =
      mk folders (Shelf.modify names leaf files f) := rfl

theorem modify_mk_cons (f : Entry → Entry) (key : Bytes) (hp : p ≠ [])
    (folders : Array (NameRef × Node)) (files : Array (NameRef × Entry)) :
    modify names f (key :: p) (mk folders files) =
      mk (Shelf.modify names key folders (modify names f p)) files := by
  cases p with
  | nil => exact absurd rfl hp
  | cons key' p => rfl

/-- **Changing the file at a path** changes it in the list of all files and nothing else. -/
theorem toList_modify {at_ : Path} (h : n.WellFormed names at_) (f : Entry → Entry) (p : Path) :
    toList names (modify names f p n) =
      (toList names n).map fun x => (x.1, if x.1 = p then f x.2 else x.2) := by
  induction p generalizing n at_ with
  | nil =>
    refine ((List.map_congr_left fun x hx => ?_).trans (List.map_id _)).symm
    rw [if_neg (ne_nil_of_mem_toList hx)]
    rfl
  | cons key rest ih =>
    obtain ⟨hfolders, hfiles, -, -, -, -, hbelow⟩ := h
    rename_i folders files
    by_cases hrest : rest = []
    · subst hrest
      rw [modify_mk_leaf, toList_mk, toList_mk, List.map_append, Shelf.toList_modify hfiles,
        List.map_map, List.map_map, List.map_flatMap]
      congr 1
      · refine List.map_congr_left fun x _ => ?_
        simp only [Function.comp_apply, List.cons.injEq, and_true]
      · refine List.flatMap_congr fun x _ => ?_
        rw [List.map_map]
        refine List.map_congr_left fun y hy => ?_
        have hy' : y.1 ≠ [] := ne_nil_of_mem_toList hy
        have hne : names.get x.1 :: y.1 ≠ [key] := fun h => hy' (List.cons.inj h).2
        simp only [Function.comp_apply, if_neg hne]
    · rw [modify_mk_cons f key hrest, toList_mk, toList_mk, List.map_append,
        Shelf.toList_modify hfolders, List.map_map, List.flatMap_map, List.map_flatMap]
      congr 1
      · refine List.map_congr_left fun x _ => ?_
        have hne : [names.get x.1] ≠ key :: rest := fun h => hrest (List.cons.inj h).2.symm
        simp only [Function.comp_apply, if_neg hne]
      · refine List.flatMap_congr fun x hx => ?_
        rw [List.map_map]
        by_cases hk : names.get x.1 = key
        · rw [if_pos hk, ih (hbelow x hx), List.map_map]
          refine List.map_congr_left fun y _ => ?_
          simp only [Function.comp_apply, hk, List.cons.injEq, true_and]
        · rw [if_neg hk]
          refine List.map_congr_left fun y _ => ?_
          have hne : names.get x.1 :: y.1 ≠ key :: rest := fun h => hk (List.cons.inj h).1
          simp only [Function.comp_apply, if_neg hne]

theorem WellFormed.modify {at_ : Path} (h : n.WellFormed names at_) {f : Entry → Entry}
    (hf : ∀ e, (f e).name = e.name) (p : Path) : (n.modify names f p).WellFormed names at_ := by
  induction p generalizing n at_ with
  | nil => exact h
  | cons key rest ih =>
    obtain ⟨folders, files⟩ := n
    obtain ⟨hfolders, hfiles, hfitFolders, hfitFiles⟩ := wellFormed_mk_iff.mp h
    by_cases hrest : rest = []
    · subst hrest
      rw [modify_mk_leaf]
      refine wellFormed_mk_iff.mpr ⟨hfolders, hfiles.modify key f, hfitFolders, fun x hx => ?_⟩
      rw [Shelf.toList_modify hfiles] at hx
      obtain ⟨y, hy, rfl⟩ := List.mem_map.mp hx
      have hname : (if names.get y.1 = key then f y.2 else y.2).name = y.2.name := by
        split
        · exact hf y.2
        · rfl
      rw [FitsFile, hname]
      exact hfitFiles y hy
    · rw [modify_mk_cons f key hrest]
      refine wellFormed_mk_iff.mpr ⟨hfolders.modify key _, hfiles, fun x hx => ?_, hfitFiles⟩
      rw [Shelf.toList_modify hfolders] at hx
      obtain ⟨y, hy, rfl⟩ := List.mem_map.mp hx
      obtain ⟨hheld, hinhabited, hwf⟩ := hfitFolders y hy
      by_cases hk : names.get y.1 = key
      · rw [if_pos hk]
        refine ⟨hheld, ?_, ih hwf⟩
        rw [toList_modify hwf]
        exact fun h => hinhabited (List.map_eq_nil_iff.mp h)
      · rw [if_neg hk]
        exact hfitFolders y hy

end PakIndex.Node
