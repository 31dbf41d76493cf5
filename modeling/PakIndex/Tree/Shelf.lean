import PakIndex.Name.Pool

/-!
# Shelves

A shelf holds things under names, in the order of the names' bytes. What is under a name is found by
halving.

* `Spot`: where a name stands on a shelf, or where it belongs.
* `Shelf.spot`: the search for a name.
* `Shelf.get?`, `Shelf.alter`, `Shelf.modify`: reading, putting and changing what is under a name.
-/

namespace PakIndex

/-- Things under names, in the order of the names' bytes. -/
abbrev Shelf (α : Type) := Array (NameRef × α)

/-- Where a name stands among `n` things, or the place that it would take. -/
inductive Spot (n : Nat)
  | found (i : Fin n)
  | gap (i : Fin (n + 1))
  deriving Repr, DecidableEq

/-- The search in `[lo, hi)` for a thing that `order` calls equal, where `order` says on which side
of it the others stand. -/
def searchBetween {α : Type} (order : α → Ordering) (a : Array α) (lo hi : Nat) (hlo : lo ≤ hi)
    (hhi : hi ≤ a.size) : Spot a.size :=
  if _h : lo < hi then
    match order a[(lo + hi) / 2] with
    | .eq => .found ⟨(lo + hi) / 2, by omega⟩
    | .lt => searchBetween order a ((lo + hi) / 2 + 1) hi (by omega) hhi
    | .gt => searchBetween order a lo ((lo + hi) / 2) (by omega) (by omega)
  else .gap ⟨lo, by omega⟩
termination_by hi - lo

namespace Shelf

variable {α β : Type} (names : NamePool) (key : Bytes) (shelf : Shelf α)

/-- Where a name stands on a shelf, or where it belongs. -/
def spot : Spot shelf.size :=
  searchBetween (fun x => compare (names.get x.1) key) shelf 0 shelf.size (Nat.zero_le _)
    (Nat.le_refl _)

/-- What is under a name. -/
def get? : Option α :=
  match shelf.spot names key with
  | .found i => some shelf[i].2
  | .gap _ => none

/-- The shelf on which `f` says what is under a name and how the name is kept, given what was there
before; `f` may also report something. -/
def alter [Inhabited α] (f : Option (NameRef × α) → β × (NameRef × α)) : β × Shelf α :=
  match shelf.spot names key with
  | .found i =>
    let x := shelf[i]
    let rest := shelf.set i default
    let (b, y) := f (some x)
    (b, rest.set i y (by simp [rest]))
  | .gap i =>
    let (b, y) := f none
    (b, shelf.insertIdx i y)

/-- The shelf on which what is under a name, if anything is, is changed by `f`. -/
def modify (f : α → α) : Shelf α :=
  match shelf.spot names key with
  | .found i => Array.modify shelf i fun (r, x) => (r, f x)
  | .gap _ => shelf

end Shelf

end PakIndex
