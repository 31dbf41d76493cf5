import PakIndex.Proofs.Index.Layout
import PakIndex.Proofs.Name.Utf8

/-!
# Listed paths

* `Index.Normal`, `Index.Obtained.normal`: the names of all entries are normalized, however an index
  has come about.
* `Index.Normal.find?_pathOf`: an entry whose name is a text is found at the path that it is listed
  with.
* **`Index.obtained_paths`**: the entries that some path leads to are those whose names are texts,
  and no two of them are listed with one path.
-/

namespace PakIndex.Index

variable {i j : Index} {s : Stream} {e : Entry} {p : Path} {path : String}

/-! ## Normalized names -/

/-- Whether the names of all entries of a well-formed tree are normalized. -/
structure Normal (i : Index) : Prop where
  tree : i.tree.WellFormed
  names : ∀ p e, (p, e) ∈ i.tree.toList → normalizeName (i.tree.nameOf e) = i.tree.nameOf e

theorem Coherent.normal (h : i.Coherent s) : i.Normal :=
  ⟨h.tree, fun p e he => (h.entries p e he).normal⟩

theorem Normal.reaches (h : i.Normal) (hr : Reaches s i j) : j.Normal := by
  apply hr.preserves (P := Normal) h
  · intro j p e d hj he _
    refine ⟨hj.tree.modify p fun _ => rfl, fun q x hx => ?_⟩
    rcases mem_located hj.tree he hx with hx | ⟨rfl, rfl⟩
    · exact hj.names q x hx
    · exact hj.names q e he
  · intro j hj
    exact ⟨hj.tree, hj.names⟩

/-- **The names of all entries are normalized**, however an index has come about. -/
theorem Obtained.normal (h : Obtained i) : i.Normal := by
  induction h with
  | build h => exact (build_coherent h).normal
  | create options => exact (create_coherent options).normal
  | memorize path _ ih => exact ⟨ih.tree, ih.names⟩
  | use codec s u _ ih => exact ih.reaches (use_reaches ih.tree codec u)
  | @flush i content _ ih =>
    obtain ⟨htree, -⟩ := flush_keeps i content
    refine ⟨?_, ?_⟩ <;> rw [htree]
    exacts [ih.tree, ih.names]

/-! ## Paths and names -/

theorem mem_entries : (path, e) ∈ i.entries ↔
    path = i.tree.pathOf e ∧ ∃ p, (p, e) ∈ i.tree.toList := by
  constructor
  · intro h
    obtain ⟨e, he, ⟨⟩⟩ := List.mem_map.mp h
    obtain ⟨⟨p, e⟩, hp, ⟨⟩⟩ := List.mem_map.mp he
    exact ⟨rfl, p, hp⟩
  · rintro ⟨rfl, p, hp⟩
    exact List.mem_map.mpr ⟨e, List.mem_map.mpr ⟨(p, e), hp, rfl⟩, rfl⟩

theorem isUtf8_of_find? (h : i.tree.WellFormed) (hf : i.find? path = some e) :
    (i.tree.nameOf e).IsUtf8 := by
  have hpath := h.path_of_mem (h.find?_eq_some_iff.mp hf)
  refine Bytes.isUtf8_iff_segments.mpr fun seg hseg => ?_
  rw [← hpath] at hseg
  exact isUtf8_of_mem_querySegments hseg

/-- **An entry whose name is a text is found at the path that it is listed with**, whatever
separators it has at its start, at its end or side by side. -/
theorem Normal.find?_pathOf (h : i.Normal) (he : (p, e) ∈ i.tree.toList)
    (htext : (i.tree.nameOf e).IsUtf8) : i.find? (i.tree.pathOf e) = some e := by
  have hquery : querySegments (i.tree.pathOf e) = p := by
    rw [querySegments, Tree.pathOf, utf8_lossyText htext, ← segments_normalizeName,
      h.names p e he]
    exact (h.tree.path_of_mem he).symm
  exact h.tree.find?_eq_some_iff.mpr (hquery ▸ he)

theorem nodup_entries (h : i.tree.WellFormed) : (i.entries.map Prod.snd).Nodup := by
  have hpaths : ∀ x ∈ i.tree.toList, ∀ y ∈ i.tree.toList, x.2 = y.2 → x = y := by
    rintro ⟨p, e⟩ hp ⟨q, e'⟩ hq rfl
    rw [h.path_of_mem hp, h.path_of_mem hq]
  have hsnd : i.entries.map Prod.snd = i.tree.toList.map Prod.snd := by
    rw [entries, List.map_map]
    exact List.map_id' _
  rw [hsnd]
  exact h.nodup_paths.of_map.map_on hpaths

/-- **The entries that paths lead to** are those whose names are texts. The path that such an entry
is listed with spells its name and leads to it, and no two of them are listed with one path. No two
entries are equal, so that it is that very entry which is found. -/
theorem obtained_paths (h : Obtained i) :
    (∀ path e, (path, e) ∈ i.entries →
      ((∃ query, i.find? query = some e) ↔ (i.tree.nameOf e).IsUtf8) ∧
      ((i.tree.nameOf e).IsUtf8 → utf8 path = i.tree.nameOf e ∧ i.find? path = some e)) ∧
    ((i.entries.filter fun x => (i.tree.nameOf x.2).IsUtf8).map Prod.fst).Nodup ∧
    (i.entries.map Prod.snd).Nodup := by
  have hnormal := h.normal
  have hfound : ∀ path e, (path, e) ∈ i.entries → (i.tree.nameOf e).IsUtf8 →
      utf8 path = i.tree.nameOf e ∧ i.find? path = some e := by
    intro path e he htext
    obtain ⟨rfl, p, hp⟩ := mem_entries.mp he
    exact ⟨utf8_lossyText htext, hnormal.find?_pathOf hp htext⟩
  have hnodup := nodup_entries hnormal.tree
  refine ⟨fun path e he => ⟨⟨?_, ?_⟩, hfound path e he⟩, ?_, hnodup⟩
  · rintro ⟨query, hf⟩
    exact isUtf8_of_find? hnormal.tree hf
  · intro htext
    exact ⟨path, (hfound path e he htext).2⟩
  · -- Two entries with one path are both found there.
    refine (hnodup.of_map.filter _).map_on ?_
    rintro ⟨path, e⟩ hx ⟨path', e'⟩ hy rfl
    obtain ⟨hx, htext⟩ := List.mem_filter.mp hx
    obtain ⟨hy, htext'⟩ := List.mem_filter.mp hy
    have hf := (hfound path e hx (of_decide_eq_true htext)).2
    have hf' := (hfound path e' hy (of_decide_eq_true htext')).2
    cases hf.symm.trans hf'
    rfl

/-- A name with separators at its start and side by side is found at the path that it is listed
with, and no path leads to a name that is not a text. -/
theorem obtained_paths_apart :
    let build name := Index.build {} (fun _ stored _ => .ok stored)
      (.ofBytes (Packed.archive [Packed.plain name [1]] []))
    (∃ i e, build [0x2F, 0x41, 0x5C, 0x5C, 0xC3, 0xA9] = .ok i ∧ i.entries = [("/a//é", e)] ∧
      i.find? "/a//é" = some e) ∧
    ∃ i e, build [0x61, 0xFF] = .ok i ∧ i.entries = [("a\uFFFD", e)] ∧
      ∀ query, i.find? query ≠ some e := by
  intro build
  have hlisted : ∀ name path normal, ((build name).toOption.map fun i =>
      i.entries.map fun x => (x.1, i.tree.nameOf x.2)) = some [(path, normal)] →
      ∃ i e, build name = .ok i ∧ i.entries = [(path, e)] ∧ i.tree.nameOf e = normal := by
    intro name path normal h
    obtain ⟨i, hi, h⟩ := Option.map_eq_some_iff.mp h
    obtain ⟨⟨_, e⟩, he, ⟨⟩⟩ := List.map_eq_singleton_iff.mp h
    exact ⟨i, e, toOption_eq_some_iff.mp hi, he, rfl⟩
  obtain ⟨i, e, hi, he, hname⟩ := hlisted [0x2F, 0x41, 0x5C, 0x5C, 0xC3, 0xA9] "/a//é"
    [0x2F, 0x61, 0x2F, 0x2F, 0xC3, 0xA9] (by decide +kernel)
  obtain ⟨j, e', hj, he', hname'⟩ := hlisted [0x61, 0xFF] "a\uFFFD" [0x61, 0xFF] (by decide +kernel)
  have hmem := (obtained_paths (.build hi)).1 "/a//é" e (he ▸ .head _)
  have hmem' := (obtained_paths (.build hj)).1 "a\uFFFD" e' (he' ▸ .head _)
  refine ⟨⟨i, e, hi, he, (hmem.2 (hname ▸ by decide +kernel)).2⟩, j, e', hj, he', ?_⟩
  intro query hf
  have htext := hmem'.1.mp ⟨query, hf⟩
  rw [hname'] at htext
  exact absurd htext (by decide +kernel)

end PakIndex.Index
