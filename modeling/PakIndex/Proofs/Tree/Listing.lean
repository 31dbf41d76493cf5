import PakIndex.Proofs.Tree.InsertAll

/-!
# Listings

* `Node.walk?_spec`, `Node.isSome_walk?_iff`: the subfolder at a path, and when there is one.
* `Folder.Lists`: a folder holds the names that follow its path in the paths of files;
  `Folder.Lists.unique`: there is one such folder.
* `Tree.Listed`: what the listings of a tree are; **`Tree.Arranged.listed`**: those of an arranged
  tree are so.
* `Tree.stored`: the entries that are left of those that are put, the last one under each path;
  **`Tree.Arranged.entries_insertAll_perm`**: these are the ones that are listed.
* **`Tree.insertAll_listings`**: listings are complete, without repetitions, and the same for every
  order in which entries are put.
-/

namespace PakIndex

/-! ## The subfolder at a path -/

namespace Node

variable {names : NamePool} {n m : Node} {e : Entry} {at_ p : Path} {key : Bytes}

theorem walk?_cons (key : Bytes) (p : Path) (n : Node) :
    walk? names (key :: p) n = (n.folders.get? names key).bind (walk? names p) := by
  rw [walk?]
  cases n.folders.get? names key <;> rfl

theorem mem_toList_below (h : n.WellFormed names at_) (hp : p ≠ []) :
    (key :: p, e) ∈ toList names n ↔
      ∃ child, n.folders.get? names key = some child ∧ (p, e) ∈ toList names child := by
  obtain ⟨folders, files⟩ := n
  have hget : ∀ child, (mk folders files).folders.get? names key = some child ↔
      ∃ r, (r, child) ∈ folders.toList ∧ names.get r = key := fun child =>
    Shelf.get?_eq_some_iff (wellFormed_mk_iff.mp h).1
  rw [mem_toList_cons hp]
  constructor
  · rintro ⟨r, child, hr, hk, hq⟩
    exact ⟨child, (hget child).mpr ⟨r, hr, hk⟩, hq⟩
  · rintro ⟨child, hc, hq⟩
    obtain ⟨r, hr, hk⟩ := (hget child).mp hc
    exact ⟨r, child, hr, hk, hq⟩

theorem WellFormed.child (h : n.WellFormed names at_)
    (hc : n.folders.get? names key = some m) :
    m.WellFormed names (at_ ++ [key]) ∧ toList names m ≠ [] := by
  obtain ⟨folders, files⟩ := n
  obtain ⟨hsorted, -, hfit, -⟩ := wellFormed_mk_iff.mp h
  obtain ⟨r, hr, rfl⟩ := (Shelf.get?_eq_some_iff hsorted).mp hc
  obtain ⟨-, hne, hwf⟩ := hfit _ hr
  exact ⟨hwf, hne⟩

/-- **The subfolder at a path** is well formed, has a file below it if it is not the folder itself,
and lists what is below the path. -/
theorem walk?_spec (h : n.WellFormed names at_) (hw : walk? names p n = some m) :
    m.WellFormed names (at_ ++ p) ∧ (p ≠ [] → toList names m ≠ []) ∧
      ∀ q ≠ [], ∀ e, (q, e) ∈ toList names m ↔ (p ++ q, e) ∈ toList names n := by
  induction p generalizing n at_ with
  | nil =>
    cases hw
    rw [List.append_nil]
    exact ⟨h, fun hne => absurd rfl hne, fun _ _ _ => Iff.rfl⟩
  | cons key rest ih =>
    rw [walk?_cons, Option.bind_eq_some_iff] at hw
    obtain ⟨child, hc, hw⟩ := hw
    obtain ⟨hwf, hne⟩ := h.child hc
    obtain ⟨hm, hinhabited, hmem⟩ := ih hwf hw
    rw [List.append_assoc] at hm
    refine ⟨hm, fun _ => ?_, fun q hq e => ?_⟩
    · cases rest with
      | nil =>
        cases hw
        exact hne
      | cons key' rest => exact hinhabited (List.cons_ne_nil _ _)
    · have hrest : rest ++ q ≠ [] := List.append_ne_nil_of_right_ne_nil rest hq
      rw [List.cons_append, mem_toList_below h hrest, hmem q hq, hc]
      simp

theorem isSome_walk?_iff (h : n.WellFormed names at_) : (walk? names p n).isSome ↔
    p = [] ∨ ∃ q ≠ [], ∃ e, (p ++ q, e) ∈ toList names n := by
  induction p generalizing n at_ with
  | nil => simp [walk?]
  | cons key rest ih =>
    rw [walk?_cons]
    have hbelow : ∀ q ≠ [], ∀ e, (key :: rest ++ q, e) ∈ toList names n ↔
        ∃ child, n.folders.get? names key = some child ∧ (rest ++ q, e) ∈ toList names child :=
      fun q hq e => mem_toList_below h (List.append_ne_nil_of_right_ne_nil rest hq)
    cases hc : n.folders.get? names key with
    | none =>
      simp only [hc, reduceCtorEq, false_and, exists_false, iff_false] at hbelow
      simpa using hbelow
    | some child =>
      obtain ⟨hwf, hne⟩ := h.child hc
      simp only [hc] at hbelow
      rw [Option.bind_some, ih hwf]
      constructor
      · rintro (rfl | ⟨q, hq, e, he⟩)
        · obtain ⟨⟨q, e⟩, hqe⟩ := List.exists_mem_of_ne_nil _ hne
          have hq := ne_nil_of_mem_toList hqe
          exact .inr ⟨q, hq, e, (hbelow q hq e).mpr ⟨child, rfl, hqe⟩⟩
        · exact .inr ⟨q, hq, e, (hbelow q hq e).mpr ⟨child, rfl, he⟩⟩
      · rintro (hnil | ⟨q, hq, e, he⟩)
        · cases hnil
        · obtain ⟨_, ⟨⟩, he⟩ := (hbelow q hq e).mp he
          exact .inr ⟨q, hq, e, he⟩

end Node

/-! ## What a folder holds -/

variable {t t' : Tree} {es es' : List Entry}

/-- Whether `f` holds what a tree has in the folder `dir`: its files are the entries whose paths go
on with one more name, its subfolders the names that are followed by others, and both are in strict
order. -/
structure Folder.Lists (t : Tree) (dir : Path) (f : Folder) : Prop where
  mem_files : ∀ name e, (name, e) ∈ f.files ↔
    e ∈ t.entries ∧ t.names.path e.name = dir ++ [name]
  mem_folders : ∀ name, name ∈ f.folders ↔
    ∃ e ∈ t.entries, ∃ rest ≠ [], t.names.path e.name = dir ++ name :: rest
  files_ordered : f.files.Pairwise fun a b => compare a.1 b.1 = .lt
  folders_ordered : f.folders.Pairwise fun a b => compare a b = .lt

theorem eq_of_pairwise_of_mem_iff {α : Type} {r : α → α → Prop} {l l' : List α}
    (hr : ∀ {a b}, r a b → r b a → False) (hl : l.Pairwise r) (hl' : l'.Pairwise r)
    (hmem : ∀ a, a ∈ l ↔ a ∈ l') : l = l' := by
  have hnd : ∀ {l : List α}, l.Pairwise r → l.Nodup := by
    intro l hl
    apply hl.imp
    rintro a _ hab rfl
    exact hr hab hab
  have hperm : l.Perm l' := (List.perm_ext_iff_of_nodup (hnd hl) (hnd hl')).mpr hmem
  exact hperm.eq_of_pairwise (fun a b _ _ hab hba => (hr hab hba).elim) hl hl'

theorem Bytes.lt_asymm {a b : Bytes} (h : compare a b = .lt) (h' : compare b a = .lt) : False :=
  Bytes.not_lt_self (Std.TransCmp.lt_trans h h')

theorem Folder.Lists.unique {dir : Path} {f f' : Folder} (h : f.Lists t dir)
    (h' : f'.Lists t dir) : f = f' := by
  have hfiles : f.files = f'.files := by
    refine eq_of_pairwise_of_mem_iff Bytes.lt_asymm h.files_ordered h'.files_ordered ?_
    rintro ⟨name, e⟩
    rw [h.mem_files, h'.mem_files]
  have hfolders : f.folders = f'.folders := by
    refine eq_of_pairwise_of_mem_iff Bytes.lt_asymm h.folders_ordered h'.folders_ordered ?_
    intro name
    rw [h.mem_folders, h'.mem_folders]
  cases f
  cases f'
  cases hfiles
  cases hfolders
  rfl

namespace Tree

/-! ## The listings of a tree -/

/-- What the listings of a tree are. -/
structure Listed (t : Tree) : Prop where
  /-- What is found at a path is the entry in the list whose name spells it. -/
  found : ∀ p e, t.get? p = some e ↔ e ∈ t.entries ∧ t.names.path e.name = p
  /-- The list is as long as the number of entries says. -/
  length_entries : t.entries.length = t.size
  /-- In every folder the files come before the subfolders, each by the bytes of their names. -/
  ordered : t.entries.Pairwise fun a b => Path.Before (t.names.path a.name) (t.names.path b.name)
  /-- To go over the list for changes visits the same entries in the same order, and what is changed
  at a place is the entry that the list has there. -/
  visited : ∀ k x, t.toList[k]? = some x → t.entries[k]? = some x.2 ∧
    ∀ f, (t.modify x.1 f).entries = t.entries.modify k f
  /-- There is a folder at a path if some entry's path goes on from there; the root is always. -/
  isSome_folder : ∀ path, (t.folder? path).isSome ↔ querySegments path = [] ∨
    ∃ e ∈ t.entries, querySegments path <+: t.names.path e.name ∧
      querySegments path ≠ t.names.path e.name
  /-- A folder holds what goes on from its path. -/
  folder : ∀ path f, t.folder? path = some f → f.Lists t (querySegments path)

theorem Arranged.mem_toList_iff (h : t.Arranged) {p : Path} {e : Entry} :
    (p, e) ∈ t.toList ↔ e ∈ t.entries ∧ t.names.path e.name = p := by
  constructor
  · intro he
    exact ⟨List.mem_map_of_mem (f := Prod.snd) he, h.path_of_mem he⟩
  · rintro ⟨he, rfl⟩
    obtain ⟨⟨p, x⟩, hx, rfl⟩ := List.mem_map.mp he
    rw [h.path_of_mem hx]
    exact hx

theorem Arranged.entries_ordered (h : t.Arranged) :
    t.entries.Pairwise fun a b => Path.Before (t.names.path a.name) (t.names.path b.name) := by
  rw [entries, List.pairwise_map]
  refine (Node.toList_pairwise h.root).imp_of_mem fun {x y} hx hy hxy => ?_
  rw [h.path_of_mem hx, h.path_of_mem hy]
  exact hxy

theorem Arranged.entries_modify (h : t.Arranged) {k : Nat} {x : Path × Entry}
    (hk : t.toList[k]? = some x) (f : Entry → Entry) :
    (t.modify x.1 f).entries = t.entries.modify k f := by
  obtain ⟨hlt, hx⟩ := List.getElem?_eq_some_iff.mp hk
  rw [entries, toList_modify h, List.map_map]
  apply List.ext_getElem?
  intro j
  rw [List.getElem?_map, List.getElem?_modify, entries, List.getElem?_map]
  cases hj : t.toList[j]? with
  | none => rfl
  | some y =>
    obtain ⟨hltj, hy⟩ := List.getElem?_eq_some_iff.mp hj
    have hiff : y.1 = x.1 → k = j := fun hxy =>
      (List.getElem?_inj (by rwa [List.length_map]) h.nodup_paths).mp (by simp [hk, hj, hxy])
    by_cases hkj : k = j
    · subst hkj
      rw [hk] at hj
      cases hj
      simp
    · simp [hkj, mt hiff hkj]

theorem Arranged.folder?_lists (h : t.Arranged) {path : String} {f : Folder}
    (hf : t.folder? path = some f) : f.Lists t (querySegments path) := by
  obtain ⟨m, hm, rfl⟩ := Option.map_eq_some_iff.mp hf
  obtain ⟨hwf, -, hmem⟩ := Node.walk?_spec h.root hm
  have hbelow : ∀ q ≠ [], ∀ e, (q, e) ∈ Node.toList t.names m ↔
      e ∈ t.entries ∧ t.names.path e.name = querySegments path ++ q := fun q hq e =>
    (hmem q hq e).trans h.mem_toList_iff
  obtain ⟨folders, files⟩ := m
  obtain ⟨hfolders, hfiles, hfit, -⟩ := Node.wellFormed_mk_iff.mp hwf
  refine ⟨fun name e => ?_, fun name => ?_, List.pairwise_map.mpr hfiles,
    List.pairwise_map.mpr hfolders⟩
  · rw [← hbelow [name] (List.cons_ne_nil _ _), Node.mem_toList_singleton, List.mem_map]
    constructor
    · rintro ⟨⟨r, x⟩, hx, ⟨⟩⟩
      exact ⟨r, hx, rfl⟩
    · rintro ⟨r, hr, rfl⟩
      exact ⟨(r, e), hr, rfl⟩
  · rw [List.mem_map]
    constructor
    · rintro ⟨⟨r, child⟩, hr, rfl⟩
      obtain ⟨-, hne, -⟩ := hfit _ hr
      obtain ⟨⟨q, e⟩, hqe⟩ := List.exists_mem_of_ne_nil _ hne
      have hq := Node.ne_nil_of_mem_toList hqe
      obtain ⟨he, hpath⟩ := (hbelow (t.names.get r :: q) (List.cons_ne_nil _ _) e).mp
        ((Node.mem_toList_cons hq).mpr ⟨r, child, hr, rfl, hqe⟩)
      exact ⟨e, he, q, hq, hpath⟩
    · rintro ⟨e, he, rest, hrest, hpath⟩
      obtain ⟨r, child, hr, hk, -⟩ := (Node.mem_toList_cons hrest).mp
        ((hbelow (name :: rest) (List.cons_ne_nil _ _) e).mpr ⟨he, hpath⟩)
      exact ⟨(r, child), hr, hk⟩

theorem Arranged.isSome_folder?_iff (h : t.Arranged) (path : String) :
    (t.folder? path).isSome ↔ querySegments path = [] ∨
      ∃ e ∈ t.entries, querySegments path <+: t.names.path e.name ∧
        querySegments path ≠ t.names.path e.name := by
  rw [folder?, Option.isSome_map, Node.isSome_walk?_iff h.root]
  apply or_congr_right
  constructor
  · rintro ⟨q, hq, e, he⟩
    obtain ⟨he, hpath⟩ := h.mem_toList_iff.mp he
    refine ⟨e, he, ⟨q, hpath.symm⟩, fun heq => hq ?_⟩
    rw [hpath] at heq
    exact List.self_eq_append_right.mp heq
  · rintro ⟨e, he, ⟨q, hq⟩, hne⟩
    refine ⟨q, fun hnil => hne ?_, e, h.mem_toList_iff.mpr ⟨he, hq.symm⟩⟩
    rw [← hq, hnil, List.append_nil]

/-- **The listings of an arranged tree.** -/
theorem Arranged.listed (h : t.Arranged) : t.Listed where
  found _ _ := h.get?_eq_some_iff.trans h.mem_toList_iff
  length_entries := by rw [entries, List.length_map, h.size_eq]
  ordered := h.entries_ordered
  visited k x hk := ⟨by rw [entries, List.getElem?_map, hk]; rfl, h.entries_modify hk⟩
  isSome_folder := h.isSome_folder?_iff
  folder _ _ hf := h.folder?_lists hf

/-! ## Which entries are listed -/

/-- The entries that are left when `e` is put: none under its path but itself, unless its name has
no segments. -/
def put (names : NamePool) (kept : List Entry) (e : Entry) : List Entry :=
  if names.path e.name = [] then kept
  else e :: kept.filter fun x => names.path x.name != names.path e.name

/-- The entries that are left of those that are put one after the other. -/
def stored (names : NamePool) (es : List Entry) : List Entry := es.foldl (put names) []

theorem Arranged.entries_insert_perm (h : t.Arranged) {e : Entry} (he : t.names.Holds e.name) :
    (t.insert e).2.entries.Perm (put t.names t.entries e) := by
  by_cases hp : t.names.path e.name = []
  · rw [insert_of_path_eq_nil hp, put, if_pos hp]
  · obtain ⟨-, -, hperm⟩ := h.insert_spec he hp
    have hfilter : (t.toList.filter fun x => x.1 != t.names.path e.name).map Prod.snd =
        t.entries.filter fun x => t.names.path x.name != t.names.path e.name := by
      rw [entries, List.filter_map]
      congr 1
      apply List.filter_congr
      intro x hx
      rw [Function.comp_apply, h.path_of_mem hx]
    rw [put, if_neg hp, ← hfilter]
    exact hperm.map Prod.snd

theorem put_perm {names : NamePool} {kept kept' : List Entry} (h : kept.Perm kept') (e : Entry) :
    (put names kept e).Perm (put names kept' e) := by
  rw [put, put]
  split
  · exact h
  · exact (h.filter _).cons e

theorem Arranged.entries_insertAll_perm (h : t.Arranged)
    (hes : ∀ e ∈ es, t.names.Holds e.name) :
    (t.insertAll es).entries.Perm (es.foldl (put t.names) t.entries) := by
  -- Of the entries so far it matters only which ones they are.
  have hfold : ∀ (es : List Entry) {kept kept' : List Entry}, kept.Perm kept' →
      (es.foldl (put t.names) kept).Perm (es.foldl (put t.names) kept') := by
    intro es
    induction es with
    | nil => exact id
    | cons e es ih => exact fun hkept => ih (put_perm hkept e)
  induction es generalizing t with
  | nil => exact .refl _
  | cons e es ih =>
    obtain ⟨he, hes⟩ := List.forall_mem_cons.mp hes
    have hnames := names_insert t e
    have hrest := ih (h.insert he) (by rwa [hnames]) (by rwa [hnames])
    rw [hnames] at hrest
    rw [insertAll_cons, List.foldl_cons]
    exact hrest.trans (hfold es (h.entries_insert_perm he))

/-! ## The order in which entries are put -/

theorem toList_eq_of_get? (h : t.Arranged) (h' : t'.Arranged) (hget : t.get? = t'.get?) :
    t.toList = t'.toList := by
  refine eq_of_pairwise_of_mem_iff Path.Before.asymm (Node.toList_pairwise h.root)
    (Node.toList_pairwise h'.root) ?_
  rintro ⟨p, e⟩
  rw [← h.get?_eq_some_iff, hget, h'.get?_eq_some_iff]

theorem folder?_eq_of_entries (h : t.Arranged) (h' : t'.Arranged) (hnames : t.names = t'.names)
    (hentries : t.entries = t'.entries) : t.folder? = t'.folder? := by
  funext path
  have hsome := h.isSome_folder?_iff path
  rw [hnames, hentries, ← h'.isSome_folder?_iff] at hsome
  cases hf : t.folder? path with
  | none =>
    rw [hf, Option.isSome_none, Bool.false_eq_true, false_iff,
      Option.not_isSome_iff_eq_none] at hsome
    exact hsome.symm
  | some f =>
    obtain ⟨f', hf'⟩ := Option.isSome_iff_exists.mp (hsome.mp (by rw [hf]; rfl))
    have hlists := h'.folder?_lists hf'
    obtain ⟨h₁, h₂, h₃, h₄⟩ := h.folder?_lists hf
    rw [hnames, hentries] at h₁ h₂
    rw [hf', Folder.Lists.unique ⟨h₁, h₂, h₃, h₄⟩ hlists]

theorem filter_path_eq {names : NamePool} (hperm : es.Perm es')
    (hnd : (es.map fun e => names.path e.name).Nodup) (q : Path) :
    (es.filter fun e => q == names.path e.name) = es'.filter fun e => q == names.path e.name := by
  have hfilter := hperm.filter fun e => q == names.path e.name
  have hpath : ∀ x ∈ es.filter fun e => q == names.path e.name, names.path x.name = q := fun x hx =>
    (beq_iff_eq.mp (List.mem_filter.mp hx).2).symm
  have hnd := hnd.sublist
    ((List.filter_sublist (l := es) (p := fun e => q == names.path e.name)).map _)
  rcases hl : es.filter fun e => q == names.path e.name with _ | ⟨a, _ | ⟨b, l⟩⟩ <;>
    rw [hl] at hfilter hpath hnd ⊢
  · exact hfilter.nil_eq
  · exact hfilter.singleton_eq
  · simp [hpath a (by simp), hpath b (by simp)] at hnd

/-- **The order in which entries are put does not matter** if they are under different paths. -/
theorem Arranged.insertAll_perm (h : t.Arranged) (hes : ∀ e ∈ es, t.names.Holds e.name)
    (hperm : es.Perm es') (hnd : (es.map fun e => t.names.path e.name).Nodup) :
    (t.insertAll es).entries = (t.insertAll es').entries ∧
      (t.insertAll es).find? = (t.insertAll es').find? ∧
      (t.insertAll es).folder? = (t.insertAll es').folder? := by
  have hes' : ∀ e ∈ es', t.names.Holds e.name := fun e he => hes e (hperm.mem_iff.mpr he)
  have hget : (t.insertAll es).get? = (t.insertAll es').get? := by
    funext q
    by_cases hq : q = []
    · subst hq
      rfl
    · rw [h.get?_insertAll hes hq, h.get?_insertAll hes' hq, filter_path_eq hperm hnd]
  have hentries : (t.insertAll es).entries = (t.insertAll es').entries :=
    congrArg (List.map Prod.snd) (toList_eq_of_get? (h.insertAll hes) (h.insertAll hes') hget)
  refine ⟨hentries, funext fun path => congrFun hget _, ?_⟩
  refine folder?_eq_of_entries (h.insertAll hes) (h.insertAll hes') ?_ hentries
  rw [names_insertAll, names_insertAll]

/-- **Listings are complete, without repetitions, and the same for every order in which entries are
put.** Of entries that are put into the empty tree the last one under each path is listed, in every
folder its files first, then its subfolders; folders hold what goes on from their paths; and further
entries under different paths may be put in any order. -/
theorem insertAll_listings (raws : List Bytes) (es : List Entry)
    (hes : ∀ e ∈ es, e.name ∈ (NamePool.ofNames raws).1) :
    let names := (NamePool.ofNames raws).2
    let t := (ofNames names).insertAll es
    t.names = names ∧ t.entries.Perm (stored names es) ∧ t.Listed ∧
      ∀ more more', (∀ e ∈ more, e.name ∈ (NamePool.ofNames raws).1) → more.Perm more' →
        (more.map fun e => names.path e.name).Nodup →
        (t.insertAll more).entries = (t.insertAll more').entries ∧
          (t.insertAll more).find? = (t.insertAll more').find? ∧
          (t.insertAll more).folder? = (t.insertAll more').folder? := by
  intro names t
  have hholds : ∀ es : List Entry, (∀ e ∈ es, e.name ∈ (NamePool.ofNames raws).1) →
      ∀ e ∈ es, names.Holds e.name := fun es hes e he => NamePool.holds_of_mem_ofNames (hes e he)
  have hempty : (ofNames names).Arranged := arranged_ofNames names
  have hnames : t.names = names := names_insertAll _ es
  have ht : t.Arranged := hempty.insertAll (hholds es hes)
  refine ⟨hnames, hempty.entries_insertAll_perm (hholds es hes), ht.listed, ?_⟩
  intro more more' hmore hperm hnd
  refine ht.insertAll_perm ?_ hperm ?_
  · rw [hnames]
    exact hholds more hmore
  · rw [hnames]
    exact hnd

/-- A file is put twice, then one in a folder of the same name and others, in two orders. -/
theorem insertAll_listings_mixed :
    let raws : List Bytes :=
      [[0x42], [0x62], [0x62, 0x2F, 0x63], [0x61], [0x42, 0x5C, 0x64, 0x2F, 0x65]]
    let names := (NamePool.ofNames raws).2
    let entry (i : Nat) : Entry := { (default : Entry) with
      name := (NamePool.ofNames raws).1.getD i default, headerOffset := .ofNat i }
    let t := (ofNames names).insertAll [entry 0, entry 1]
    let more := [entry 2, entry 3, entry 4]
    t.Listed ∧ t.entries = [entry 1] ∧
      (t.insertAll more).entries = (t.insertAll more.reverse).entries ∧
      (t.insertAll more).folder? = (t.insertAll more.reverse).folder? := by
  intro raws names entry t more
  have hname : ∀ i < 5, (entry i).name ∈ (NamePool.ofNames raws).1 := by decide
  have hes : ∀ e ∈ [entry 0, entry 1], e.name ∈ (NamePool.ofNames raws).1 := by
    simp [hname]
  have hmore : ∀ e ∈ more, e.name ∈ (NamePool.ofNames raws).1 := by
    simp [more, hname]
  have hnd : (more.map fun e => names.path e.name).Nodup := by decide +kernel
  have hstored : stored names [entry 0, entry 1] = [entry 1] := by decide +kernel
  obtain ⟨-, hperm, hlisted, horder⟩ := insertAll_listings raws [entry 0, entry 1] hes
  obtain ⟨hentries, -, hfolders⟩ := horder more more.reverse hmore (List.reverse_perm more).symm hnd
  refine ⟨hlisted, List.perm_singleton.mp ?_, hentries, hfolders⟩
  rw [← hstored]
  exact hperm

end Tree

end PakIndex
