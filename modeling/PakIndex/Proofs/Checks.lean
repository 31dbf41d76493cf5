import PakIndex.Proofs.Steps
import Mathlib.Tactic

/-!
# Checks in order

* `Checks`: what a step asks for, in order, each with the error for what does not hold.
* `Checks.Hold`, `Checks.First`: all of them hold, or one is the first that does not.
* `FailsAs`: a step fails with the error of the first check that does not hold, and only then;
  **`FailsAs.bind`**: steps in a row make their checks in a row.
* **`FailsAs.exists_ok_iff`**: such a step succeeds if all checks hold, and only then.
-/

namespace PakIndex

/-- What a step asks for, in this order, each with the error for what does not hold. -/
abbrev Checks := List (Prop × Error)

namespace Checks

variable {cs ds : Checks} {p : Prop} {e e' : Error}

/-- Whether all checks hold. -/
def Hold (cs : Checks) : Prop := ∀ c ∈ cs, c.1

/-- Whether an error is that of the first check that does not hold. -/
def First (cs : Checks) (e : Error) : Prop :=
  ∃ before p after, cs = before ++ (p, e) :: after ∧ Hold before ∧ ¬ p

theorem hold_nil : Hold [] := nofun

theorem hold_cons_iff : Hold ((p, e) :: cs) ↔ p ∧ Hold cs := List.forall_mem_cons

theorem hold_append_iff : Hold (cs ++ ds) ↔ Hold cs ∧ Hold ds := List.forall_mem_append

theorem not_first_nil : ¬ First [] e := by
  rintro ⟨before, p, after, h, -⟩
  exact List.append_ne_nil_of_right_ne_nil before (List.cons_ne_nil _ _) h.symm

theorem first_cons_iff : First ((p, e') :: cs) e ↔ ¬ p ∧ e' = e ∨ p ∧ First cs e := by
  constructor
  · rintro ⟨_ | ⟨c, before⟩, q, after, h, hold, hq⟩
    · cases h
      exact .inl ⟨hq, rfl⟩
    · cases h
      obtain ⟨hp, hold⟩ := hold_cons_iff.mp hold
      exact .inr ⟨hp, before, q, after, rfl, hold, hq⟩
  · rintro (⟨hp, rfl⟩ | ⟨hp, before, q, after, rfl, hold, hq⟩)
    · exact ⟨[], p, cs, rfl, hold_nil, hp⟩
    · exact ⟨(p, e') :: before, q, after, rfl, hold_cons_iff.mpr ⟨hp, hold⟩, hq⟩

theorem first_append_iff : First (cs ++ ds) e ↔ First cs e ∨ Hold cs ∧ First ds e := by
  induction cs with
  | nil => exact ⟨fun h => .inr ⟨hold_nil, h⟩, fun h => (h.resolve_left not_first_nil).2⟩
  | cons c cs ih =>
    rw [List.cons_append, first_cons_iff, first_cons_iff, hold_cons_iff, ih]
    tauto

theorem First.exists_mem (h : First cs e) : ∃ c ∈ cs, c.2 = e := by
  obtain ⟨before, p, after, rfl, -, -⟩ := h
  exact ⟨(p, e), List.mem_append_right _ List.mem_cons_self, rfl⟩

theorem hold_iff_forall_not_first : Hold cs ↔ ∀ e, ¬ First cs e := by
  induction cs with
  | nil => exact iff_of_true hold_nil fun _ => not_first_nil
  | cons c cs ih =>
    obtain ⟨p, e'⟩ := c
    simp only [first_cons_iff, hold_cons_iff, ih]
    constructor
    · rintro ⟨hp, hcs⟩ e (⟨hn, -⟩ | ⟨-, h⟩)
      · exact hn hp
      · exact hcs e h
    · intro h
      have hp : p := by_contra fun hn => h e' (.inl ⟨hn, rfl⟩)
      exact ⟨hp, fun e he => h e (.inr ⟨hp, he⟩)⟩

end Checks

/-! ## Steps that make checks -/

/-- Whether a step fails with the error of the first check that does not hold, and only then. -/
def FailsAs {α : Type} (x : Except Error α) (cs : Checks) : Prop :=
  ∀ e, x = .error e ↔ cs.First e

namespace FailsAs

variable {α β : Type} {x : Except Error α} {y : Except Error β} {f : α → Except Error β}
  {cs ds : Checks} {p : Prop} {e : Error}

theorem ok {a : α} : FailsAs (.ok a) [] := fun _ => iff_of_false nofun Checks.not_first_nil

theorem first (hp : ¬ p) : FailsAs (.error e : Except Error α) ((p, e) :: cs) := by
  intro e'
  rw [Checks.first_cons_iff, Except.error.injEq]
  exact ⟨fun h => .inl ⟨hp, h⟩, fun h => h.elim And.right fun h => absurd h.1 hp⟩

theorem cons (hp : p) (hx : FailsAs x cs) : FailsAs x ((p, e) :: cs) := by
  intro e'
  rw [Checks.first_cons_iff, hx e']
  exact ⟨fun h => .inr ⟨hp, h⟩, fun h => h.elim (fun h => absurd hp h.1) And.right⟩

/-- Checks count for what they say. -/
theorem congr {q : Prop} (hpq : p ↔ q) (hx : FailsAs x ((q, e) :: cs)) :
    FailsAs x ((p, e) :: cs) := by
  rw [propext hpq]
  exact hx

theorem guard {c : Prop} [Decidable c] {g : PUnit → Except Error β} (hp : p ↔ ¬ c)
    (hy : p → FailsAs y cs) : FailsAs (if c then throw e >>= g else y) ((p, e) :: cs) := by
  by_cases hc : c
  · rw [if_pos hc]
    exact .first fun h => hp.mp h hc
  · rw [if_neg hc]
    exact .cons (hp.mpr hc) (hy (hp.mpr hc))

theorem require {q : Prop} [Decidable (¬ q)] {g : PUnit → Except Error β} (hp : p ↔ q)
    (hy : p → FailsAs y cs) : FailsAs (if ¬ q then throw e >>= g else y) ((p, e) :: cs) :=
  .guard (hp.trans not_not.symm) hy

/-- **Steps in a row** make their checks in a row. -/
theorem bind (hx : FailsAs x cs) (hf : ∀ a, x = .ok a → FailsAs (f a) ds) :
    FailsAs (x >>= f) (cs ++ ds) := by
  intro e
  rw [bind_eq_error_iff, Checks.first_append_iff, hx e]
  refine or_congr_right ⟨?_, ?_⟩
  · rintro ⟨a, rfl, h⟩
    refine ⟨Checks.hold_iff_forall_not_first.mpr fun e' he' => ?_, (hf a rfl e).mp h⟩
    cases (hx e').mpr he'
  · rintro ⟨hold, h⟩
    cases hr : x with
    | error e' => exact absurd ((hx e').mp hr) (Checks.hold_iff_forall_not_first.mp hold e')
    | ok a => exact ⟨a, rfl, (hf a hr e).mpr h⟩

theorem map {g : α → β} (hx : FailsAs x cs) : FailsAs (x.map g) cs := fun e =>
  map_eq_error_iff.trans (hx e)

/-- **A step succeeds** if all its checks hold, and only then. -/
theorem exists_ok_iff (hx : FailsAs x cs) : (∃ a, x = .ok a) ↔ cs.Hold := by
  rw [Checks.hold_iff_forall_not_first]
  constructor
  · rintro ⟨a, rfl⟩ e h
    cases (hx e).mpr h
  · intro h
    cases hr : x with
    | error e => exact absurd ((hx e).mp hr) (h e)
    | ok a => exact ⟨a, rfl⟩

end FailsAs

end PakIndex
