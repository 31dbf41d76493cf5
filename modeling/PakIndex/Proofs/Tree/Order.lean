import PakIndex.Proofs.Tree.Node

/-!
# The order of listings

* `Path.Before`: in every folder the files come first, then the subfolders, each by their names.
* **`Node.toList_pairwise`**: the files of a well-formed folder are listed in this order.
* `Path.Before.asymm`: it puts different paths one way only.
-/

namespace PakIndex

namespace Path

/-- Whether one path is listed before another: in every folder the files come before the subfolders,
each by the bytes of their names. -/
def Before : Path → Path → Prop
  | [], _ => False
  | _ :: _, [] => False
  | [a], [b] => compare a b = .lt
  | [_], _ :: _ :: _ => True
  | _ :: _ :: _, [_] => False
  | a :: a' :: p, b :: b' :: q => compare a b = .lt ∨ a = b ∧ Before (a' :: p) (b' :: q)

theorem before_cons {key : Bytes} {p q : Path} (h : Before p q) : Before (key :: p) (key :: q) := by
  cases p with
  | nil => exact h.elim
  | cons a p =>
    cases q with
    | nil => cases p <;> exact h.elim
    | cons b q => exact .inr ⟨rfl, h⟩

theorem before_of_lt {a b : Bytes} {p q : Path} (hp : p ≠ []) (hq : q ≠ [])
    (h : compare a b = .lt) : Before (a :: p) (b :: q) := by
  cases p with
  | nil => exact absurd rfl hp
  | cons a' p =>
    cases q with
    | nil => exact absurd rfl hq
    | cons b' q => exact .inl h

theorem file_before_folder {a b : Bytes} {q : Path} (hq : q ≠ []) : Before [a] (b :: q) := by
  cases q with
  | nil => exact absurd rfl hq
  | cons b' q => trivial

theorem Before.asymm {p q : Path} (h : Before p q) (h' : Before q p) : False := by
  have hlt : ∀ {a b : Bytes}, compare a b = .lt → compare b a ≠ .lt := fun h h' =>
    Bytes.not_lt_self (Std.TransCmp.lt_trans h h')
  fun_induction Before p q with
  | case1 => exact h
  | case2 => exact h
  | case3 a b => exact hlt h h'
  | case4 => exact h'
  | case5 => exact h
  | case6 a a' p b b' q ih =>
    rcases h with h | ⟨rfl, h⟩
    · rcases h' with h' | ⟨rfl, -⟩
      · exact hlt h h'
      · exact Bytes.not_lt_self h
    · rcases h' with h' | ⟨-, h'⟩
      · exact Bytes.not_lt_self h'
      · exact ih h h'

theorem Before.ne {p q : Path} (h : Before p q) : p ≠ q := by
  rintro rfl
  exact h.asymm h

end Path

namespace Node

variable {names : NamePool} {n : Node} {at_ : Path}

/-- **The files of a folder are listed in order.** -/
theorem toList_pairwise (h : n.WellFormed names at_) :
    (toList names n).Pairwise fun x y => Path.Before x.1 y.1 := by
  induction h with
  | @mk at_ folders files hfolders hfiles _ _ _ _ _ ih =>
    rw [toList_mk, List.pairwise_append]
    refine ⟨?_, ?_, ?_⟩
    · rw [List.pairwise_map]
      exact hfiles
    · rw [List.pairwise_flatMap]
      refine ⟨fun x hx => ?_, hfolders.imp fun {x y} hxy => ?_⟩
      · rw [List.pairwise_map]
        exact (ih x hx).imp fun h => Path.before_cons h
      · intro u hu v hv
        obtain ⟨u', hu', rfl⟩ := List.mem_map.mp hu
        obtain ⟨v', hv', rfl⟩ := List.mem_map.mp hv
        exact Path.before_of_lt (ne_nil_of_mem_toList hu') (ne_nil_of_mem_toList hv') hxy
    · intro u hu v hv
      obtain ⟨u, -, rfl⟩ := List.mem_map.mp hu
      obtain ⟨x, -, hv⟩ := List.mem_flatMap.mp hv
      obtain ⟨v', hv', rfl⟩ := List.mem_map.mp hv
      exact Path.file_before_folder (ne_nil_of_mem_toList hv')

theorem nodup_paths (h : n.WellFormed names at_) : ((toList names n).map Prod.fst).Nodup := by
  rw [List.Nodup, List.pairwise_map]
  exact (toList_pairwise h).imp fun h => h.ne

theorem nodup_toList (h : n.WellFormed names at_) : (toList names n).Nodup :=
  (nodup_paths h).of_map

end Node

end PakIndex
